import Formula.Proofs.RecastTree
import Formula.Proofs.SourcePlaces

namespace Formula

open Token

def Recast.forth (k : Nat) : Recast := ⟨(· + k), fun _ text => text⟩

def Recast.back (k : Nat) : Recast := ⟨(· - k), fun _ text => text⟩

section

variable {r : Recast} {ts : List Token}

/-- A change that keeps all names keeps what tokens say. -/
theorem Recast.token_of_names (hnames : ∀ v text, r.name v text = text) (t : Token) :
    r.token t = ⟨t.value, r.span t.span⟩ := by
  obtain ⟨value, span⟩ := t
  cases value with
  | atom a => cases a <;> simp [Recast.token, Recast.atom, hnames]
  | _ => rfl

theorem Recast.admits_of_names {vars : List Nat} (hnames : ∀ v text, r.name v text = text)
    (hranked : Ranked ts)
    (htouch : ∀ t ∈ ts, ∀ u ∈ ts, (r.token t).Touches (r.token u) ↔ t.Touches u) : r.Admits ts vars :=
  ⟨hranked, htouch, fun _ _ text _ hne => absurd (hnames _ text) hne⟩

theorem Recast.name_of_token {t : Token} {text : List Char}
    (h : (r.token t).value = .atom (.name text)) : ∃ text', t.value = .atom (.name text') := by
  obtain ⟨value, span⟩ := t
  cases value with
  | atom a => cases a <;> simp_all [Recast.token, Recast.atom]
  | _ => cases h

/-- A literal stays one among tokens that move, if where they move to no other ones arise behind its
first token. -/
theorem HeadsLiteral.recast (hadmits : r.Admits ts []) (hranked : Ranked (ts.map r.token))
    (hback : ∀ us, us <:+ ts → us.length < ts.length →
      HeadsLiteral (us.map r.token) → HeadsLiteral us)
    (h : HeadsLiteral ts) : HeadsLiteral (ts.map r.token) := by
  obtain ⟨next, o, us, rest, rfl, ho, hspells, hclear⟩ := (headsLiteral_iff hadmits.ranked).mp h
  have hspells' := spells_recast hspells (hadmits.part [] rest rfl (by simp))
  rw [headsLiteral_iff hranked]
  refine ⟨_, o.recast r, us.map r.token, rest.map r.token, List.map_append, ?_, hspells', ?_⟩
  · cases o <;> exact ho
  intro pre' t' post' text hts ht hplace hheads
  rw [Operand.variables_recast] at hplace
  obtain ⟨v, hv, hstart⟩ := List.mem_map.mp hplace
  obtain ⟨pre, t, post, rfl, rfl, hinside⟩ := spells_literal_inside hspells ho v hv
  have hmap : (pre ++ t :: post ++ rest).map r.token =
      pre.map r.token ++ r.token t :: (post ++ rest).map r.token := by simp
  rw [hmap] at hranked hts
  obtain ⟨rfl, rfl, rfl⟩ := hranked.unique hts hstart
  have hne : pre ≠ [] := by
    rintro rfl
    exact absurd hinside (Nat.lt_irrefl 0)
  have hpos := List.length_pos_iff.mpr hne
  have hbehind := hback (t :: (post ++ rest)) ⟨pre, by simp⟩ (by
    simp only [List.length_append, List.length_cons]
    omega) hheads
  obtain ⟨text', ht'⟩ := Recast.name_of_token ht
  exact hclear pre t (post ++ rest) text' (by simp) ht' hv hbehind

theorem Token.Ranked.of_suffix {us : List Token} (h : Ranked ts) (hus : us <:+ ts) : Ranked us :=
  List.Pairwise.sublist hus.sublist h

theorem forth_token (k : Nat) (t : Token) :
    (Recast.forth k).token t = ⟨t.value, t.span.start + k, t.span.stop + k⟩ :=
  Recast.token_of_names (fun _ _ => rfl) t

theorem back_token (k : Nat) (t : Token) :
    (Recast.back k).token t = ⟨t.value, t.span.start - k, t.span.stop - k⟩ :=
  Recast.token_of_names (fun _ _ => rfl) t

theorem back_forth (k : Nat) (ts : List Token) :
    (ts.map (Recast.forth k).token).map (Recast.back k).token = ts := by
  induction ts with
  | nil => rfl
  | cons t ts ih =>
    rw [List.map_cons, List.map_cons, ih, forth_token, back_token]
    simp

def Token.Past (k : Nat) (ts : List Token) : Prop :=
  ∀ t ∈ ts, k ≤ t.span.start ∧ k ≤ t.span.stop

theorem past_forth (k : Nat) (ts : List Token) : Past k (ts.map (Recast.forth k).token) := by
  refine List.forall_mem_map.mpr fun t _ => ?_
  rw [forth_token]
  exact ⟨Nat.le_add_left _ _, Nat.le_add_left _ _⟩

theorem forth_back {k : Nat} (h : Past k ts) :
    (ts.map (Recast.back k).token).map (Recast.forth k).token = ts := by
  induction ts with
  | nil => rfl
  | cons t ts ih =>
    obtain ⟨⟨hstart, hstop⟩, hts⟩ := List.forall_mem_cons.mp h
    rw [List.map_cons, List.map_cons, ih hts, back_token, forth_token]
    simp only [Nat.sub_add_cancel hstart, Nat.sub_add_cancel hstop]

theorem ranked_forth {k : Nat} (h : Ranked ts) : Ranked (ts.map (Recast.forth k).token) := by
  refine List.pairwise_map.mpr (h.imp fun hlt => ?_)
  exact Nat.add_lt_add_right hlt k

theorem ranked_back {k : Nat} (hpast : Past k ts) (h : Ranked ts) :
    Ranked (ts.map (Recast.back k).token) := by
  rw [← forth_back hpast] at h
  refine (List.pairwise_map.mp h).imp fun hlt => ?_
  rw [forth_token, forth_token] at hlt
  exact Nat.lt_of_add_lt_add_right hlt

variable {vars : List Nat}

theorem admits_forth {k : Nat} (h : Ranked ts) : (Recast.forth k).Admits ts vars := by
  refine Recast.admits_of_names (fun _ _ => rfl) h fun t _ u _ => ?_
  exact Nat.add_right_cancel_iff

theorem admits_back {k : Nat} (hpast : Past k ts) (h : Ranked ts) :
    (Recast.back k).Admits ts vars := by
  refine Recast.admits_of_names (fun _ _ => rfl) h fun t ht u hu => ?_
  have hstop := (hpast t ht).2
  have hstart := (hpast u hu).1
  rw [Touches, Touches, back_token, back_token]
  simp only
  omega

/-- Tokens head a literal wherever they stand. -/
theorem headsLiteral_forth {k : Nat} (h : Ranked ts) :
    HeadsLiteral (ts.map (Recast.forth k).token) ↔ HeadsLiteral ts := by
  -- By induction on the tokens: what might arise elsewhere arises behind the first of them.
  induction hn : ts.length using Nat.strong_induction_on generalizing ts with
  | _ n ih =>
    constructor
    · intro hheads
      have hback := HeadsLiteral.recast (admits_back (past_forth k ts) (ranked_forth h))
        (by rwa [back_forth])
        (fun us hus hlt hus' => ?_) hheads
      · rwa [back_forth] at hback
      · obtain ⟨pre, hpre⟩ := hus
        obtain ⟨ps, vs, rfl, rfl, rfl⟩ := List.map_eq_append_iff.mp hpre.symm
        rw [List.length_map, List.length_map] at hlt
        rw [back_forth] at hus'
        exact (ih vs.length (hn ▸ hlt) h.behind rfl).mpr hus'
    · refine HeadsLiteral.recast (admits_forth h) (ranked_forth h) fun us hus hlt hheads => ?_
      exact (ih us.length (hn ▸ hlt) (h.of_suffix hus) rfl).mp hheads

end

end Formula
