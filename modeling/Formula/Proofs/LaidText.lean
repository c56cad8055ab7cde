import Formula.Proofs.BracketTokens
import Formula.Proofs.LikeText
import Formula.Proofs.ShiftedTokens
import Formula.Proofs.TreePlaces

namespace Formula

open Lexeme Token Formula.Parser

namespace Token

def Delimits (t u : Token) : Prop := ∀ a, t.value = .atom a → (∀ text, a ≠ .name text) →
  ∃ s, u.value = .symbol s ∧ s ≠ .dot ∧ s ≠ .ellipsis

theorem delimits_symbol {t : Token} {s : Symbol} (h : t.value = .symbol s) (u : Token) : t.Delimits u :=
  fun a ha => by rw [h] at ha; cases ha

theorem delimits_name {t : Token} {text : List Char} (h : t.value = .atom (.name text)) (u : Token) :
    t.Delimits u := by
  intro a ha hnot
  obtain rfl : a = .name text := by simpa [h] using ha.symm
  exact absurd rfl (hnot text)

theorem delimits_before {u : Token} {s : Symbol} (h : u.value = .symbol s) (hdot : s ≠ .dot)
    (hdots : s ≠ .ellipsis) (t : Token) : t.Delimits u :=
  fun _ _ _ => ⟨s, h, hdot, hdots⟩

def Delimited (ts : List Token) : Prop := ts.IsChain Delimits

variable {t l r : Token} {ts us : List Token} {s : Symbol}

theorem Delimited.symbol_cons (hts : Delimited ts) (h : t.value = .symbol s) : Delimited (t :: ts) :=
  List.IsChain.cons hts fun u _ => delimits_symbol h u

theorem Delimited.name_cons {text : List Char} (hts : Delimited ts) (h : t.value = .atom (.name text)) :
    Delimited (t :: ts) :=
  List.IsChain.cons hts fun u _ => delimits_name h u

/-- A sign may stand between two parts. -/
theorem Delimited.between (hts : Delimited ts) (h : t.value = .symbol s) (hdot : s ≠ .dot)
    (hdots : s ≠ .ellipsis) (hus : Delimited us) : Delimited (ts ++ t :: us) := by
  refine List.isChain_append.mpr ⟨hts, hus.symbol_cons h, fun u _ v hv => ?_⟩
  obtain rfl := Option.some.inj hv
  exact delimits_before h hdot hdots u

theorem delimited_nil : Delimited [] := .nil

def Edge (us vs : List Token) (p : Nat) : Prop :=
  us ≠ [] ∧ stopOf us = p ∨ vs ≠ [] ∧ startOf vs = p

theorem IsCode.no_stray {t : Token} (h : t.IsCode) (c : Char) : t.value ≠ .stray c := by
  rcases h with ⟨a, ha⟩ | ⟨s, hs⟩
  · rw [ha]
    exact nofun
  · rw [hs]
    exact nofun

end Token

/-- Signs stand between the literals of what is spelled. -/
theorem spells_delimited {next : Nat} {ts : List Token} {f : Form} (h : Spells next ts f) :
    Delimited ts := by
  induction h with
  | @join next ts ots us joined o op rest h hop hr ih ihr =>
    cases hop with
    | one ht _ => exact ih.between ht nofun nofun ihr
    | andNot ht hu _ => exact ih.between ht nofun nofun (ihr.symbol_cons hu)
  | signed ht _ _ ih => exact ih.symbol_cons ht
  | index hb hl hp hr ihb ihp =>
    exact ihb.between hl nofun nofun (ihp.between hr nofun nofun delimited_nil)
  | atom ht => exact List.isChain_singleton _
  | group hl hp hr ih => exact (ih.between hr nofun nofun delimited_nil).symbol_cons hl
  | call hf hl hps hr ih =>
    exact ((ih.between hr nofun nofun delimited_nil).symbol_cons hl).name_cons hf
  | composite ht hc hl hes hr iht ihes =>
    exact iht.between hl nofun nofun (ihes.between hr nofun nofun delimited_nil)
  | noPhrase | noElement => exact delimited_nil
  | morePhrases _ hc _ ih ihs => exact ih.between hc nofun nofun ihs
  | keyed _ hc _ ihk ihv => exact ihk.between hc nofun nofun ihv
  | moreElements _ hc _ ih ihs => exact ih.between hc nofun nofun ihs
  | mapType hw hl _ hr _ ihk ihv =>
    exact ((ihk.between hr nofun nofun ihv).symbol_cons hl).name_cons hw
  | sliceType hl hr _ ih => exact (ih.symbol_cons hr).symbol_cons hl
  | arrayType hl _ hr _ ihp ihe => exact (ihp.between hr nofun nofun ihe).symbol_cons hl
  | openArrayType hl hd hr _ ih => exact ((ih.symbol_cons hr).symbol_cons hd).symbol_cons hl
  | pointerType hm _ ih => exact ih.symbol_cons hm
  | qualifiedType ht hd hu _ _ =>
    exact (Delimited.symbol_cons (List.isChain_singleton _) hd).name_cons ht
  | namedType ht => exact List.isChain_singleton _
  | last _ ih | unsigned _ ih | base _ ih | onePhrase _ ih | plain _ ih | oneElement _ ih => exact ih

namespace Laid

variable {offset : Nat} {cs rest : List Char} {ts us : List Token}

/-- No name or number goes on with a blank or a comment. -/
theorem blank_parts {c : Char} (h : c ∈ blanks) : Parts c := by
  have hall : blanks.all (fun c => !continuesName c && c != '.') = true := by decide +kernel
  simpa [Parts] using List.all_eq_true.mp hall c h

/-- Blanks and comments end what stands before them. -/
theorem ends_trivia {text : List Char} (h : trivia? (text ++ rest) = some (text, rest)) :
    Ends (text ++ rest) := by
  obtain ⟨c, k, rfl⟩ := List.exists_cons_of_ne_nil (trivia_text h).2
  intro d hd
  obtain rfl := Option.some.inj hd
  refine blank_parts ?_
  by_contra hc
  rw [List.cons_append, trivia_missing hc] at h
  cases h

/-- So do signs, but for dots. -/
theorem ends_symbol {s : Symbol} (hdot : s ≠ .dot) (hdots : s ≠ .ellipsis) : Ends (s.text ++ rest) := by
  have hall : s.text.head?.all (fun c => !continuesName c && c != '.') = true := by
    cases s with
    | op o => cases o <;> decide +kernel
    | opening b | closing b => cases b <;> decide +kernel
    | bang | comma | colon => decide +kernel
    | dot => exact absurd rfl hdot
    | ellipsis => exact absurd rfl hdots
  intro d hd
  obtain ⟨c, k, hs⟩ := List.exists_cons_of_ne_nil (symbol_text_ne_nil s)
  rw [hs] at hd hall
  obtain rfl := Option.some.inj hd
  simpa [Parts] using hall

/-- Behind a literal among delimited tokens, what follows ends it. -/
theorem ends {t : Token} {a : Atom} (h : Laid offset cs ts) (ht : t.value = .atom a)
    (hnot : ∀ text, a ≠ .name text) (hdelimited : Delimited (t :: ts)) : Ends cs := by
  cases h with
  | done => exact nofun
  | trivia htrivia _ => exact ends_trivia htrivia
  | token _ _ _ =>
    obtain ⟨s, rfl, hdot, hdots⟩ := hdelimited.rel a ht hnot
    exact ends_symbol hdot hdots

/-- Of two fronts of a text, the one that is no longer is the front of the other one. -/
theorem front_of_front {as bs cs ds : List Char} (h : as ++ bs = cs ++ ds)
    (hle : byteSize as ≤ byteSize cs) : ∃ ms, cs = as ++ ms ∧ bs = ms ++ ds := by
  rcases List.append_eq_append_iff.mp h with ⟨ms, hcs, hbs⟩ | ⟨ms, has, hds⟩
  · exact ⟨ms, hcs, hbs⟩
  · have hnil : ms = [] := by
      by_contra hne
      have hpos := byteSize_pos hne
      rw [has, byteSize_append] at hle
      omega
    subst hnil
    exact ⟨[], by simpa using has.symm, by simpa using hds.symm⟩

theorem byteSize_eq_zero {cs : List Char} (h : byteSize cs = 0) : cs = [] := by
  by_contra hne
  have hpos := byteSize_pos hne
  omega

/-- No tokens stop or start before the text that they stand in. -/
theorem le_edge {vs : List Token} {p : Nat} (h : Laid offset cs (us ++ vs)) (hedge : Edge us vs p) : offset ≤ p := by
  rcases hedge with ⟨hne, rfl⟩ | ⟨hne, rfl⟩
  · obtain ⟨us, z, rfl⟩ := (List.eq_nil_or_concat' us).resolve_left hne
    have hle := h.le_start (t := z) (by simp)
    have hlt := h.lined.1 z (by simp)
    rw [stopOf_last]
    omega
  · obtain ⟨v, vs, rfl⟩ := List.exists_cons_of_ne_nil hne
    exact h.le_start (t := v) (by simp)

/-- What a text starts with before its tokens stands before their edge, too. -/
theorem beyond_front {front x y : List Char} (h : Laid (offset + byteSize front) rest (us ++ ts))
    (htext : x ++ y = front ++ rest) (hedge : Edge us ts (offset + byteSize x)) :
    ∃ ms, x = front ++ ms ∧ ms ++ y = rest := by
  have hle := h.le_edge hedge
  obtain ⟨ms, rfl, hrest⟩ := front_of_front htext.symm (by omega)
  exact ⟨ms, rfl, hrest.symm⟩

/-- The tokens from one of them on stand in the text from there on. -/
theorem behind {pre : List Char} (h : Laid offset (pre ++ cs) (ts ++ us)) (hus : us ≠ [])
    (hstart : startOf us = offset + byteSize pre) : Laid (offset + byteSize pre) cs us := by
  generalize hrow : ts ++ us = row at h
  generalize htext : pre ++ cs = text at h
  induction h generalizing pre ts with
  | done => exact absurd (List.append_eq_nil_iff.mp hrow).2 hus
  | @trivia offset front rest row ht hr ih =>
    subst hrow
    obtain ⟨ms, rfl, hrest⟩ := hr.beyond_front htext (.inr ⟨hus, hstart⟩)
    rw [byteSize_append, ← Nat.add_assoc] at hstart ⊢
    exact ih hstart rfl hrest
  | @token offset l rest row ht hf hr ih =>
    cases ts with
    | nil =>
      obtain rfl := hrow
      obtain rfl : pre = [] := byteSize_eq_zero (Nat.add_left_cancel hstart).symm
      rw [List.nil_append] at htext
      rw [htext]
      exact .token ht hf hr
    | cons t ts =>
      obtain ⟨rfl, rfl⟩ := List.cons.inj hrow
      obtain ⟨ms, rfl, hrest⟩ := hr.beyond_front htext (.inr ⟨hus, hstart⟩)
      rw [byteSize_append, ← Nat.add_assoc] at hstart ⊢
      exact ih hstart rfl hrest

/-- The tokens before another one stand in the text through the last of them. -/
theorem before {text post : List Char} (h : Laid offset (text ++ post) (us ++ ts))
    (hdelimited : Delimited (us ++ ts)) (hcode : ∀ t ∈ us, t.IsCode) (hus : us ≠ [])
    (hstop : stopOf us = offset + byteSize text) : Laid offset text us := by
  have like {ms rest : List Char} (hrest : ms ++ post = rest) : Like rest ms := by
    have hcut := (show Like post [] from .cut).append ms
    rwa [List.append_nil, hrest] at hcut
  generalize hrow : us ++ ts = row at h hdelimited
  generalize hwhole : text ++ post = whole at h
  induction h generalizing us text with
  | done => exact absurd (List.append_eq_nil_iff.mp hrow).1 hus
  | @trivia offset front rest row ht hr ih =>
    subst hrow
    obtain ⟨ms, rfl, hrest⟩ := hr.beyond_front hwhole (.inl ⟨hus, hstop⟩)
    rw [byteSize_append, ← Nat.add_assoc] at hstop
    exact .trivia ((like hrest).trivia ht) (ih hcode hus hstop rfl hdelimited hrest)
  | @token offset l rest row ht hf hr ih =>
    obtain ⟨u, us, rfl⟩ := List.exists_cons_of_ne_nil hus
    obtain ⟨rfl, rfl⟩ := List.cons.inj hrow
    obtain ⟨hcodeHead, hcodeTail⟩ := List.forall_mem_cons.mp hcode
    have step {ms : List Char} (hrest : ms ++ post = rest)
        (hlaid : Laid (offset + byteSize l.text) ms us) :
        Laid offset (l.text ++ ms) (⟨l, offset, offset + byteSize l.text⟩ :: us) := by
      obtain ⟨ht', hf'⟩ := (like hrest).read hcodeHead.no_stray
        (fun a ha hnot => hr.ends (t := ⟨l, offset, offset + byteSize l.text⟩) ha hnot hdelimited) ⟨ht, hf⟩
      exact .token ht' hf' hlaid
    by_cases hnil : us = []
    · subst hnil
      have htext : text = l.text ∧ post = rest :=
        append_inj_of_byteSize hwhole (Nat.add_left_cancel hstop).symm
      obtain ⟨rfl, rfl⟩ := htext
      have hlaid := step (List.nil_append post) .done
      rwa [List.append_nil] at hlaid
    · rw [stopOf_cons hnil] at hstop
      obtain ⟨ms, rfl, hrest⟩ := hr.beyond_front hwhole (.inl ⟨hnil, hstop⟩)
      rw [byteSize_append, ← Nat.add_assoc] at hstop
      exact step hrest (ih hcodeTail hnil hstop rfl hdelimited.tail hrest)

/-- Tokens from one through another one stand in the part of the text that they cover. -/
theorem part {pre post : List Token} (h : Laid 0 cs (pre ++ (us ++ post)))
    (hdelimited : Delimited (us ++ post)) (hcode : ∀ t ∈ us, t.IsCode) (hus : us ≠ []) :
    Laid (startOf us) ((cover us).textIn cs) us ∧ Past (startOf us) (us ++ post) := by
  obtain ⟨front, behind, hsource, hfront, hstop⟩ := (h.fits hus).sliced
  generalize (cover us).textIn cs = text at hsource hstop ⊢
  have hstart : startOf (us ++ post) = 0 + byteSize front := by
    rw [Phrase.startOf_append hus, Nat.zero_add, hfront]
    rfl
  rw [hsource] at h
  have hbehind := h.behind (List.append_ne_nil_of_left_ne_nil hus _) hstart
  rw [Nat.zero_add, hfront] at hbehind
  refine ⟨hbehind.before hdelimited hcode hus hstop.symm, fun t ht => ?_⟩
  have hle : startOf us ≤ t.span.start := hbehind.le_start ht
  have hlt := hbehind.lined.1 t ht
  omega

/-- Tokens are cut alike from a text that starts further to the front. -/
theorem moved {k n : Nat} (h : Laid (n + k) cs ts) :
    Laid n cs (ts.map (Recast.back k).token) := by
  generalize hoffset : n + k = offset at h
  induction h generalizing n with
  | done => exact .done
  | @trivia offset text rest ts ht _ ih => exact .trivia ht (ih (by omega))
  | @token offset l rest ts ht hf _ ih =>
    rw [List.map_cons, back_token]
    simp only
    have hstart : offset - k = n := by omega
    have hstop : offset + byteSize l.text - k = n + byteSize l.text := by omega
    rw [hstart, hstop]
    exact .token ht hf (ih (by omega))

end Laid

end Formula
