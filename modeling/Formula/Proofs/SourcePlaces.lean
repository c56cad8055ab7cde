import Formula.Proofs.TokenText

namespace Formula

open Lexeme

def Boundary (cs : List Char) (n : Nat) : Prop := ∃ pre post, cs = pre ++ post ∧ byteSize pre = n

/-- Taking and dropping bytes passes over a text that they all belong to. -/
theorem dropBytes_add (pre post : List Char) (n : Nat) :
    dropBytes (byteSize pre + n) (pre ++ post) = dropBytes n post := by
  induction pre with
  | nil => rw [byteSize, Nat.zero_add, List.nil_append]
  | cons c pre ih =>
    have hpos := c.utf8Size_pos
    obtain ⟨m, hm⟩ : ∃ m, byteSize (c :: pre) + n = m + 1 :=
      ⟨byteSize (c :: pre) + n - 1, by rw [byteSize]; omega⟩
    have hrest : m + 1 - c.utf8Size = byteSize pre + n := by
      rw [← hm, byteSize]
      omega
    rw [hm, List.cons_append, dropBytes, hrest, ih]

theorem takeBytes_add (mid post : List Char) (n : Nat) :
    takeBytes (byteSize mid + n) (mid ++ post) = mid ++ takeBytes n post := by
  induction mid with
  | nil => rw [byteSize, Nat.zero_add, List.nil_append, List.nil_append]
  | cons c mid ih =>
    have hpos := c.utf8Size_pos
    obtain ⟨m, hm⟩ : ∃ m, byteSize (c :: mid) + n = m + 1 :=
      ⟨byteSize (c :: mid) + n - 1, by rw [byteSize]; omega⟩
    have hrest : m + 1 - c.utf8Size = byteSize mid + n := by
      rw [← hm, byteSize]
      omega
    rw [hm, List.cons_append, takeBytes, hrest, ih, List.cons_append]

theorem dropBytes_append (pre post : List Char) : dropBytes (byteSize pre) (pre ++ post) = post := by
  have hdrop := dropBytes_add pre post 0
  rwa [Nat.add_zero, dropBytes] at hdrop

theorem takeBytes_append (mid post : List Char) : takeBytes (byteSize mid) (mid ++ post) = mid := by
  have htake := takeBytes_add mid post 0
  rwa [Nat.add_zero, takeBytes, List.append_nil] at htake

/-- Two texts of the same size at the front of one text are the same. -/
theorem append_inj_of_byteSize {as bs cs ds : List Char} (h : as ++ cs = bs ++ ds)
    (hsize : byteSize as = byteSize bs) : as = bs ∧ cs = ds := by
  have htake := takeBytes_append as cs
  have hdrop := dropBytes_append as cs
  rw [h, hsize] at htake hdrop
  exact ⟨htake.symm.trans (takeBytes_append bs ds), hdrop.symm.trans (dropBytes_append bs ds)⟩

theorem length_le_byteSize (cs : List Char) : cs.length ≤ byteSize cs := by
  induction cs with
  | nil => exact Nat.le_refl 0
  | cons c cs ih =>
    have hpos := c.utf8Size_pos
    rw [byteSize, List.length_cons]
    omega

/-- Every character of a text takes one byte exactly if the text has as many bytes as characters. -/
theorem byteSize_eq_length_iff {cs : List Char} :
    byteSize cs = cs.length ↔ ∀ c ∈ cs, c.toNat < 128 := by
  induction cs with
  | nil => simp [byteSize]
  | cons c cs ih =>
    have hpos := c.utf8Size_pos
    have hle := length_le_byteSize cs
    have hone : c.utf8Size = 1 ↔ c.toNat < 128 := by
      rw [Char.utf8Size_eq_one_iff, UInt32.le_iff_toNat_le, ← Nat.lt_succ_iff]
      rfl
    rw [List.forall_mem_cons, ← ih, ← hone, byteSize, List.length_cons]
    omega

namespace Span

def textIn (s : Span) (cs : List Char) : List Char :=
  takeBytes (s.stop - s.start) (dropBytes s.start cs)

def Fits (s : Span) (cs : List Char) : Prop :=
  s.start ≤ s.stop ∧ s.stop ≤ byteSize cs ∧ Boundary cs s.start ∧ Boundary cs s.stop

theorem textIn_append (pre mid post : List Char) :
    textIn ⟨byteSize pre, byteSize pre + byteSize mid⟩ (pre ++ (mid ++ post)) = mid := by
  rw [textIn, dropBytes_append, Nat.add_sub_cancel_left, takeBytes_append]

theorem fits_append (pre mid post : List Char) :
    Fits ⟨byteSize pre, byteSize pre + byteSize mid⟩ (pre ++ (mid ++ post)) := by
  refine ⟨Nat.le_add_right _ _, ?_, ⟨pre, mid ++ post, rfl, rfl⟩, pre ++ mid, post, by simp, ?_⟩
  · simp only [byteSize_append]
    omega
  · exact byteSize_append _ _

theorem fits_of_boundary {cs : List Char} {a b : Nat} (hab : a ≤ b) (ha : Boundary cs a)
    (hb : Boundary cs b) : Fits ⟨a, b⟩ cs := by
  refine ⟨hab, ?_, ha, hb⟩
  obtain ⟨pre, post, rfl, rfl⟩ := hb
  rw [byteSize_append]
  exact Nat.le_add_right _ _

/-- What fits is sliced out of the text as it stands there. -/
theorem Fits.sliced {s : Span} {cs : List Char} (h : s.Fits cs) :
    ∃ pre post, cs = pre ++ (s.textIn cs ++ post) ∧ byteSize pre = s.start ∧
      s.start + byteSize (s.textIn cs) = s.stop := by
  obtain ⟨hle, -, ⟨pre, post, hcs, hpre⟩, ⟨pre', post', hcs', hpre'⟩⟩ := h
  obtain ⟨mid, rfl⟩ : ∃ mid, pre' = pre ++ mid := by
    rcases List.append_eq_append_iff.mp (hcs.symm.trans hcs') with ⟨mid, h, -⟩ | ⟨mid, h, -⟩
    · exact ⟨mid, h⟩
    · have hnil : mid = [] := by
        by_contra hne
        have hpos := byteSize_pos hne
        rw [h, byteSize_append] at hpre
        omega
      exact ⟨[], by rw [h, hnil]; simp⟩
  rw [byteSize_append, hpre] at hpre'
  rw [List.append_assoc] at hcs'
  have hspan : s = ⟨byteSize pre, byteSize pre + byteSize mid⟩ := by
    obtain ⟨start, stop⟩ := s
    simp only at hpre hpre'
    rw [hpre, hpre']
  refine ⟨pre, post', ?_, hpre, ?_⟩
  · rw [hcs', hspan, textIn_append]
  · rw [hcs', hspan, textIn_append]

end Span

/-- Tokens stand in a text that starts at an offset: blanks and comments are passed over, and every
token is cut where the text goes on with it. -/
inductive Laid : Nat → List Char → List Token → Prop
  | done {offset} : Laid offset [] []
  | trivia {offset text rest ts} (h : trivia? (text ++ rest) = some (text, rest))
      (hr : Laid (offset + byteSize text) rest ts) : Laid offset (text ++ rest) ts
  | token {offset l rest ts} (ht : trivia? (l.text ++ rest) = none)
      (hf : first? (l.text ++ rest) = some (l, rest))
      (hr : Laid (offset + byteSize l.text) rest ts) :
      Laid offset (l.text ++ rest) (⟨l, offset, offset + byteSize l.text⟩ :: ts)

namespace Laid

variable {offset : Nat} {cs : List Char} {ts : List Token}

def finish (offset : Nat) (cs : List Char) : Token :=
  ⟨.finish, offset + byteSize cs, offset + byteSize cs⟩

theorem finish_append (offset : Nat) (text rest : List Char) :
    finish offset (text ++ rest) = finish (offset + byteSize text) rest := by
  rw [finish, finish, byteSize_append, Nat.add_assoc]

/-- A text is cut into the tokens that stand in it, and the mark of its end. -/
theorem listFrom (h : Laid offset cs ts) {turns : Nat} (hturns : cs.length < turns) :
    Token.listFrom turns offset cs = ts ++ [finish offset cs] := by
  induction h generalizing turns with
  | done =>
    obtain ⟨n, rfl⟩ : ∃ n, turns = n + 1 := ⟨turns - 1, by omega⟩
    rfl
  | @trivia offset text rest ts ht _ ih =>
    obtain ⟨n, rfl⟩ : ∃ n, turns = n + 1 := ⟨turns - 1, by omega⟩
    have hpos := List.length_pos_iff.mpr (trivia_text ht).2
    rw [List.length_append] at hturns
    rw [Token.listFrom]
    simp only [ht]
    rw [ih (by omega), finish_append]
  -- A token is not empty, so that the turns that are left are enough for the rest.
  | @token offset l rest ts ht hf _ ih =>
    obtain ⟨n, rfl⟩ : ∃ n, turns = n + 1 := ⟨turns - 1, by omega⟩
    have hpos := List.length_pos_iff.mpr (first_head hf).2.1
    rw [List.length_append] at hturns
    rw [Token.listFrom]
    simp only [ht, hf]
    rw [ih (by omega), finish_append, List.cons_append]

/-- In every text some tokens stand. -/
theorem exists_laid (offset : Nat) (cs : List Char) : ∃ ts, Laid offset cs ts := by
  -- By induction on the length: trivia, or else a token, is cut off the front.
  induction hn : cs.length using Nat.strong_induction_on generalizing offset cs with
  | _ n ih =>
    rcases ht : trivia? cs with _ | ⟨text, rest⟩
    · rcases hf : first? cs with _ | ⟨l, rest⟩
      · obtain rfl := first_eq_none hf
        exact ⟨[], .done⟩
      · obtain ⟨rfl, hne, -⟩ := first_head hf
        have hpos := List.length_pos_iff.mpr hne
        rw [List.length_append] at hn
        obtain ⟨ts, hts⟩ := ih rest.length (by omega) (offset + byteSize l.text) rest rfl
        exact ⟨_, .token ht hf hts⟩
    · obtain ⟨rfl, hne⟩ := trivia_text ht
      have hpos := List.length_pos_iff.mpr hne
      rw [List.length_append] at hn
      obtain ⟨ts, hts⟩ := ih rest.length (by omega) (offset + byteSize text) rest rfl
      exact ⟨ts, .trivia ht hts⟩

theorem list_eq (h : Laid 0 cs ts) :
    Token.list cs = ts ++ [⟨.finish, byteSize cs, byteSize cs⟩] := by
  rw [Token.list, h.listFrom (Nat.lt_succ_self _), finish, Nat.zero_add]

/-- The tokens of a source before the mark of its end stand in it. -/
theorem of_list {us : List Token} {e : Token} (h : Token.list cs = us ++ [e]) :
    Laid 0 cs us ∧ e = ⟨.finish, byteSize cs, byteSize cs⟩ := by
  obtain ⟨ts, hts⟩ := exists_laid 0 cs
  rw [hts.list_eq] at h
  obtain ⟨rfl, he⟩ := List.append_inj' h rfl
  exact ⟨hts, (List.cons.inj he).1.symm⟩

/-- Every token stands on its own text. -/
theorem stands (h : Laid offset cs ts) {t : Token} (ht : t ∈ ts) :
    t.value.text ≠ [] ∧ ∃ pre post, cs = pre ++ (t.value.text ++ post) ∧
      t.span = ⟨offset + byteSize pre, offset + byteSize pre + byteSize t.value.text⟩ := by
  induction h with
  | done => cases ht
  | @trivia offset text rest ts _ _ ih =>
    obtain ⟨hne, pre, post, rfl, hspan⟩ := ih ht
    refine ⟨hne, text ++ pre, post, by simp, ?_⟩
    rw [hspan, byteSize_append, Nat.add_assoc]
  | @token offset l rest ts _ hf _ ih =>
    rcases List.mem_cons.mp ht with rfl | ht
    · exact ⟨(first_head hf).2.1, [], rest, rfl, rfl⟩
    · obtain ⟨hne, pre, post, rfl, hspan⟩ := ih ht
      refine ⟨hne, l.text ++ pre, post, by simp, ?_⟩
      rw [hspan, byteSize_append, Nat.add_assoc]

theorem le_start (h : Laid offset cs ts) {t : Token} (ht : t ∈ ts) : offset ≤ t.span.start := by
  obtain ⟨-, pre, post, -, hspan⟩ := h.stands ht
  rw [hspan]
  exact Nat.le_add_right _ _

end Laid

namespace Token

def Lined (ts : List Token) : Prop :=
  (∀ t ∈ ts, t.span.start < t.span.stop) ∧ ts.Pairwise fun t u => t.span.stop ≤ u.span.start

theorem lined_append_iff {ts us : List Token} : Lined (ts ++ us) ↔
    Lined ts ∧ Lined us ∧ ∀ t ∈ ts, ∀ u ∈ us, t.span.stop ≤ u.span.start := by
  simp only [Lined, List.forall_mem_append, List.pairwise_append]
  tauto

theorem lined_cons_iff {t : Token} {ts : List Token} : Lined (t :: ts) ↔
    t.span.start < t.span.stop ∧ Lined ts ∧ ∀ u ∈ ts, t.span.stop ≤ u.span.start := by
  simp only [Lined, List.forall_mem_cons, List.pairwise_cons]
  tauto

end Token

theorem Laid.lined {offset : Nat} {cs : List Char} {ts : List Token} (h : Laid offset cs ts) :
    Token.Lined ts := by
  induction h with
  | done => exact ⟨nofun, .nil⟩
  | trivia _ _ ih => exact ih
  | @token offset l rest ts _ hf hr ih =>
    have hpos := byteSize_pos (first_head hf).2.1
    exact Token.lined_cons_iff.mpr ⟨Nat.lt_add_of_pos_right hpos, ih, fun u hu => hr.le_start hu⟩

end Formula
