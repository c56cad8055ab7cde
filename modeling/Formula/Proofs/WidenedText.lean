import Formula.Proofs.LaidText

namespace Formula

open Lexeme Token Formula.Parser

def Spacing (w : List Char) : Prop := w ≠ [] ∧ ∀ c ∈ w, c ∈ spaces

inductive Widened (w : List Char) : List Char → List Char → Prop
  | here (cs) : Widened w cs (w ++ cs)
  | keep (c) {cs cs'} (h : Widened w cs cs') : Widened w (c :: cs) (c :: cs')

section Spacing

variable {w cs cs' : List Char} {c : Char}

theorem space_parts (h : c ∈ spaces) : Parts c := Laid.blank_parts (List.mem_cons_of_mem '/' h)

theorem spacing_starless (hw : Spacing w) : '*' ∉ w := fun h => absurd (hw.2 _ h) (by decide)

/-- The text starts with the blanks, or as before. -/
theorem Widened.head (h : Widened w cs cs') :
    cs' = w ++ cs ∨ ∃ c k k', cs = c :: k ∧ cs' = c :: k' ∧ Widened w k k' := by
  cases h with
  | here => exact .inl rfl
  | keep c h => exact .inr ⟨c, _, _, rfl, rfl, h⟩

/-- What stands at the front of a widened text is a blank, or has stood there. -/
theorem Widened.head_or (hw : Spacing w) (h : Widened w cs cs') :
    ∀ c ∈ cs'.head?, c ∈ spaces ∨ c ∈ cs.head? := by
  rcases h.head with rfl | ⟨c, k, k', rfl, rfl, -⟩
  · obtain ⟨b, w, rfl⟩ := List.exists_cons_of_ne_nil hw.1
    intro c hc
    obtain rfl := Option.some.inj hc
    exact .inl (hw.2 _ List.mem_cons_self)
  · exact fun c hc => .inr hc

theorem Widened.stood (hw : Spacing w) {k' : List Char} (h : Widened w cs (c :: k')) (hc : Fixed c) :
    ∃ k, cs = c :: k ∧ Widened w k k' := by
  rcases h.head with hcons | ⟨d, k, k'', rfl, hcons, hk⟩
  · obtain ⟨b, w, rfl⟩ := List.exists_cons_of_ne_nil hw.1
    obtain ⟨rfl, -⟩ := List.cons.inj hcons
    exact absurd (hw.2 c List.mem_cons_self) hc.2
  · obtain ⟨rfl, rfl⟩ := List.cons.inj hcons
    exact ⟨k, rfl, hk⟩

/-- A comment that is never closed is not closed with blanks in it, either. -/
theorem Widened.unclosed (hw : Spacing w) (h : Widened w cs cs') (hnone : closeComment cs = none) :
    closeComment cs' = none := by
  induction h with
  | here => exact (closeComment_starless (spacing_starless hw) _).mpr hnone
  | keep c h ih =>
    refine unclosed_cons (fun hhead => ?_) ih hnone
    obtain ⟨k', rfl⟩ := List.head?_eq_some_iff.mp hhead
    obtain ⟨k, rfl, -⟩ := h.stood hw (unnamed_fixed (by decide) (by decide))
    rfl

theorem widened_faithful (hw : Spacing w) : Faithful (Widened w) where
  keep c h := .keep c h
  stood h hc := h.stood hw hc
  unclosed h := h.unclosed hw
  ends_name h hends c hc := by
    rcases h.head_or hw c hc with hspace | hc
    · exact (space_parts hspace).1
    · exact hends c hc
  ends h hends c hc := by
    rcases h.head_or hw c hc with hspace | hc
    · exact space_parts hspace
    · exact hends c hc

theorem widened_append (pre post : List Char) : Widened w (pre ++ post) (pre ++ (w ++ post)) := by
  induction pre with
  | nil => exact .here post
  | cons c pre ih => exact .keep c ih

end Spacing

namespace Token

variable {us vs : List Token} {p : Nat}

/-- The tokens on both sides of an edge keep clear of it. -/
theorem Edge.bounds (h : Edge us vs p) (hline : Lined (us ++ vs)) :
    (∀ t ∈ us, t.span.stop ≤ p) ∧ ∀ t ∈ vs, p ≤ t.span.start := by
  obtain ⟨hus, hvs, hle⟩ := lined_append_iff.mp hline
  rcases h with ⟨hne, rfl⟩ | ⟨hne, rfl⟩
  · obtain ⟨us, z, rfl⟩ := (List.eq_nil_or_concat' us).resolve_left hne
    rw [stopOf_last]
    refine ⟨fun t ht => ?_, hle z (by simp)⟩
    rcases List.mem_append.mp ht with ht | ht
    · have hbefore := (lined_append_iff.mp hus).2.2 t ht z (by simp)
      have hpos := hus.1 z (by simp)
      omega
    · rw [List.mem_singleton.mp ht]
  · obtain ⟨v, vs, rfl⟩ := List.exists_cons_of_ne_nil hne
    change (∀ t ∈ us, t.span.stop ≤ v.span.start) ∧ ∀ t ∈ v :: vs, v.span.start ≤ t.span.start
    refine ⟨fun t ht => hle t ht v List.mem_cons_self, fun t ht => ?_⟩
    rcases List.mem_cons.mp ht with rfl | ht
    · exact Nat.le_refl _
    · obtain ⟨hpos, -, hbehind⟩ := lined_cons_iff.mp hvs
      have hlt := hbehind t ht
      omega

end Token

namespace Laid

variable {offset k p : Nat} {w cs x y : List Char} {ts us vs : List Token}

/-- Tokens are cut alike from a text that starts further on. -/
theorem pushed (h : Laid offset cs ts) (k : Nat) :
    Laid (offset + k) cs (ts.map (Recast.forth k).token) := by
  induction h with
  | done => exact .done
  | @trivia offset text rest ts ht _ ih =>
    rw [Nat.add_right_comm] at ih
    exact .trivia ht ih
  | @token offset l rest ts ht hf _ ih =>
    rw [List.map_cons, forth_token]
    simp only
    rw [Nat.add_right_comm] at ih ⊢
    exact .token ht hf ih

/-- Blanks are passed over. -/
theorem behind_spaces (hw : ∀ c ∈ w, c ∈ spaces) (h : Laid (offset + byteSize w) cs ts) :
    Laid offset (w ++ cs) ts := by
  induction w generalizing offset with
  | nil => exact h
  | cons c w ih =>
    obtain ⟨hc, hw⟩ := List.forall_mem_cons.mp hw
    have ht : trivia? ([c] ++ (w ++ cs)) = some ([c], w ++ cs) := by
      simp only [spaces, List.mem_cons, List.not_mem_nil, or_false] at hc
      rcases hc with rfl | rfl | rfl | rfl <;> rfl
    have hrest : Laid (offset + byteSize [c]) (w ++ cs) ts := by
      refine ih hw ?_
      rwa [byteSize, byteSize, Nat.add_zero, Nat.add_assoc]
    change Laid offset ([c] ++ (w ++ cs)) ts
    exact .trivia ht hrest

/-- Where tokens start with the text, no line ends there. -/
theorem edge_ends_no_line (h : Laid offset cs (us ++ vs)) (hedge : Edge us vs offset) :
    ∃ c ∈ cs.head?, endsLine c = false := by
  generalize hrow : us ++ vs = row at h
  cases h with
  | done =>
    obtain ⟨rfl, rfl⟩ := List.append_eq_nil_iff.mp hrow
    rcases hedge with ⟨hne, -⟩ | ⟨hne, -⟩ <;> exact absurd rfl hne
  | @trivia _ text rest _ ht hr =>
    subst hrow
    have hle := hr.le_edge hedge
    have hpos := byteSize_pos (trivia_text ht).2
    omega
  | @token _ l rest _ ht hf hr =>
    obtain ⟨c, k, hl⟩ := List.exists_cons_of_ne_nil (first_head hf).2.1
    rw [hl] at ht ⊢
    refine ⟨c, rfl, ?_⟩
    by_contra hends
    have hline : c = '\n' ∨ c = '\r' := of_decide_eq_true (Bool.eq_true_of_not_eq_false hends)
    rcases hline with rfl | rfl <;> cases ht

/-- Blanks where tokens stop or start do not change the tokens, but that those behind them move on. -/
theorem widened (h : Laid offset (x ++ y) (us ++ vs)) (hw : Spacing w) (hdelimited : Delimited (us ++ vs))
    (hcode : ∀ t ∈ us, t.IsCode) (hedge : Edge us vs (offset + byteSize x)) :
    Laid offset (x ++ (w ++ y)) (us ++ vs.map (Recast.forth (byteSize w)).token) := by
  have arrived {n : Nat} {vs : List Token} (hlaid : Laid n y vs) :
      Laid n (w ++ y) (vs.map (Recast.forth (byteSize w)).token) :=
    behind_spaces hw.2 (hlaid.pushed (byteSize w))
  generalize hrow : us ++ vs = row at h hdelimited
  generalize htext : x ++ y = text at h
  induction h generalizing us x with
  | done =>
    obtain ⟨rfl, rfl⟩ := List.append_eq_nil_iff.mp hrow
    rcases hedge with ⟨hne, -⟩ | ⟨hne, -⟩ <;> exact absurd rfl hne
  | @trivia offset front rest row ht hr ih =>
    subst hrow
    obtain ⟨ms, rfl, rfl⟩ := hr.beyond_front htext hedge
    rw [byteSize_append, ← Nat.add_assoc] at hedge
    have hlaid := ih hcode hedge rfl hdelimited rfl
    rw [List.append_assoc]
    refine .trivia (trivia_read (fun hend => ?_) ht) hlaid
    rcases ms with _ | ⟨m, ms⟩
    · rw [byteSize, Nat.add_zero] at hedge
      obtain ⟨c, hc, hno⟩ := hr.edge_ends_no_line hedge
      rw [hend c hc] at hno
      cases hno
    · exact hend
  | @token offset l rest row ht hf hr ih =>
    cases us with
    | nil =>
      rcases hedge with ⟨hne, -⟩ | ⟨hne, hstart⟩
      · exact absurd rfl hne
      obtain rfl := hrow
      obtain rfl : x = [] := byteSize_eq_zero (Nat.add_left_cancel hstart).symm
      rw [List.nil_append] at htext
      subst htext
      exact arrived (.token ht hf hr)
    | cons u us =>
      obtain ⟨rfl, rfl⟩ := List.cons.inj hrow
      obtain ⟨hcodeHead, hcodeTail⟩ := List.forall_mem_cons.mp hcode
      have step {ms : List Char} (hrest : ms ++ y = rest)
          (hlaid : Laid (offset + byteSize l.text) (ms ++ (w ++ y))
            (us ++ vs.map (Recast.forth (byteSize w)).token)) :
          Laid offset (l.text ++ (ms ++ (w ++ y))) (⟨l, offset, offset + byteSize l.text⟩ ::
            (us ++ vs.map (Recast.forth (byteSize w)).token)) := by
        subst hrest
        obtain ⟨ht', hf'⟩ := (widened_faithful hw).read (widened_append ms y) hcodeHead.no_stray
          (fun a ha hnot => hr.ends (t := ⟨l, offset, offset + byteSize l.text⟩) ha hnot hdelimited) ⟨ht, hf⟩
        exact .token ht' hf' hlaid
      have hcases : (us = [] ∧ byteSize x = byteSize l.text) ∨ Edge us vs (offset + byteSize x) := by
        rcases hedge with ⟨-, hstop⟩ | hstart
        · by_cases hnil : us = []
          · subst hnil
            exact .inl ⟨rfl, (Nat.add_left_cancel hstop).symm⟩
          · rw [stopOf_cons hnil] at hstop
            exact .inr (.inl ⟨hnil, hstop⟩)
        · exact .inr (.inr hstart)
      rcases hcases with ⟨rfl, hsize⟩ | hedge
      · obtain ⟨rfl, rfl⟩ := append_inj_of_byteSize htext hsize
        exact step (List.nil_append y) (arrived hr)
      · obtain ⟨ms, rfl, hrest⟩ := hr.beyond_front htext hedge
        rw [byteSize_append, ← Nat.add_assoc] at hedge
        rw [List.append_assoc]
        exact step hrest (ih hcodeTail hedge rfl hdelimited.tail hrest)

end Laid

end Formula
