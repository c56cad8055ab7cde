import Formula.Proofs.LaidText

namespace Formula

open Lexeme Token Formula.Parser

section Naming

variable (name : Nat → List Char)

def renamed : List Span → Nat → List Char → List Char
  | [], _, cs => cs
  | s :: ss, offset, cs => takeBytes (s.start - offset) cs ++
      (name s.start ++ renamed ss s.stop (dropBytes (s.stop - offset) cs))

def written (ss : List Span) (n : Nat) : Nat :=
  ((ss.filter (·.start < n)).map fun s => byteSize (name s.start)).sum

def overwritten (ss : List Span) (n : Nat) : Nat :=
  ((ss.filter (·.start < n)).map fun s => s.stop - s.start).sum

def Recast.naming (ss : List Span) : Recast where
  place n := n + written name ss n - overwritten ss n
  name n text := if n ∈ ss.map (·.start) then name n else text

end Naming

variable {name : Nat → List Char} {ss : List Span} {offset : Nat} {cs rest : List Char}
  {ts : List Token}

/-- What stands before the places stays. -/
theorem renamed_append {text : List Char}
    (h : ∀ s ∈ ss, offset + byteSize text ≤ s.start ∧ s.start ≤ s.stop) :
    renamed name ss offset (text ++ rest) =
      text ++ renamed name ss (offset + byteSize text) rest := by
  cases ss with
  | nil => rfl
  | cons s ss =>
    obtain ⟨hstart, hstop⟩ := h s List.mem_cons_self
    have htake : s.start - offset = byteSize text + (s.start - (offset + byteSize text)) := by omega
    have hdrop : s.stop - offset = byteSize text + (s.stop - (offset + byteSize text)) := by omega
    rw [renamed, htake, hdrop, takeBytes_add, dropBytes_add, renamed, List.append_assoc]

/-- A name that stands at the first place is written over. -/
theorem renamed_head {s : Span} {text : List Char} (hstart : s.start = offset)
    (hstop : s.stop = offset + byteSize text) : renamed name (s :: ss) offset (text ++ rest) =
      name s.start ++ renamed name ss s.stop rest := by
  have htake : s.start - offset = 0 := by omega
  have hdrop : s.stop - offset = byteSize text + 0 := by omega
  rw [renamed, htake, hdrop, dropBytes_add]
  cases text <;> cases rest <;> rfl

theorem written_before (name : Nat → List Char) {n : Nat} (h : ∀ s ∈ ss, n ≤ s.start) :
    written name ss n = 0 ∧ overwritten ss n = 0 := by
  have hnone : ss.filter (·.start < n) = [] :=
    List.filter_eq_nil_iff.mpr fun s hs => by simpa using h s hs
  simp [written, overwritten, hnone]

theorem written_cons (name : Nat → List Char) (ss : List Span) {n : Nat} {s : Span} (h : s.start < n) :
    written name (s :: ss) n = byteSize (name s.start) + written name ss n ∧
      overwritten (s :: ss) n = (s.stop - s.start) + overwritten ss n := by
  simp [written, overwritten, h]

def Outside (ss : List Span) (n : Nat) : Prop := ∀ s ∈ ss, s.stop ≤ n ∨ n ≤ s.start

/-- Between two offsets at most what stands there is written over, and something is written for it. -/
theorem written_between {a b : Nat} (hsorted : ss.Pairwise (·.stop ≤ ·.start))
    (hsound : ∀ s ∈ ss, s.start < s.stop ∧ 0 < byteSize (name s.start)) (ha : Outside ss a)
    (hb : Outside ss b) (hlt : a < b) : written name ss a ≤ written name ss b ∧
      overwritten ss b ≤ overwritten ss a + (b - a) ∧
        (written name ss a = written name ss b → overwritten ss a = overwritten ss b) := by
  induction ss generalizing a with
  | nil => exact ⟨Nat.le_refl _, by simp [overwritten], fun _ => rfl⟩
  | cons s ss ih =>
    obtain ⟨hlater, hsorted⟩ := List.pairwise_cons.mp hsorted
    obtain ⟨⟨hpos, hnew⟩, hsound⟩ := List.forall_mem_cons.mp hsound
    obtain ⟨haHead, ha⟩ := List.forall_mem_cons.mp ha
    obtain ⟨hbHead, hb⟩ := List.forall_mem_cons.mp hb
    have hnone {n : Nat} (hn : n ≤ s.start) :
        written name (s :: ss) n = 0 ∧ overwritten (s :: ss) n = 0 := by
      refine written_before name (List.forall_mem_cons.mpr ⟨hn, fun s' hs' => ?_⟩)
      have hle := hlater s' hs'
      omega
    rcases hbHead with hbHead | hbHead
    · obtain ⟨hwb, hob⟩ := written_cons name ss (Nat.lt_of_lt_of_le hpos hbHead)
      rcases haHead with haHead | haHead
      · obtain ⟨hwa, hoa⟩ := written_cons name ss (Nat.lt_of_lt_of_le hpos haHead)
        obtain ⟨hw, ho, hsame⟩ := ih hsorted hsound ha hb hlt
        omega
      · obtain ⟨hwa, hoa⟩ := hnone haHead
        have hrest : overwritten ss b ≤ b - s.stop := by
          obtain ⟨-, hstop⟩ := written_before name hlater
          rcases Nat.eq_or_lt_of_le hbHead with heq | hlt'
          · rw [← heq, hstop]
            exact Nat.zero_le _
          · have houtside : Outside ss s.stop := fun s' hs' => .inr (hlater s' hs')
            obtain ⟨-, ho, -⟩ := ih hsorted hsound houtside hb hlt'
            omega
        omega
    · obtain ⟨hwb, hob⟩ := hnone hbHead
      obtain ⟨hwa, hoa⟩ := hnone (Nat.le_trans (Nat.le_of_lt hlt) hbHead)
      omega

/-- What is written over before an offset stands before it. -/
theorem overwritten_le {n : Nat} (hsorted : ss.Pairwise (·.stop ≤ ·.start))
    (hsound : ∀ s ∈ ss, s.start < s.stop ∧ 0 < byteSize (name s.start)) (hn : Outside ss n) :
    overwritten ss n ≤ n := by
  obtain ⟨-, hzero⟩ := written_before name fun (s : Span) (_ : s ∈ ss) => Nat.zero_le s.start
  rcases Nat.eq_zero_or_pos n with rfl | hpos
  · exact Nat.le_of_eq hzero
  · obtain ⟨-, ho, -⟩ := written_between (a := 0) hsorted hsound (fun _ _ => .inr (Nat.zero_le _)) hn hpos
    omega

/-- Offsets outside of the places keep their order. -/
theorem Recast.naming_place_lt {a b : Nat} (hsorted : ss.Pairwise (·.stop ≤ ·.start))
    (hsound : ∀ s ∈ ss, s.start < s.stop ∧ 0 < byteSize (name s.start)) (ha : Outside ss a)
    (hb : Outside ss b) (hlt : a < b) : (naming name ss).place a < (naming name ss).place b := by
  obtain ⟨hw, ho, hsame⟩ := written_between hsorted hsound ha hb hlt
  have hle := overwritten_le hsorted hsound ha
  simp only [naming]
  omega

/-- A token whose name is kept says what it said. -/
theorem Recast.token_same {r : Recast} {t : Token}
    (h : ∀ text, t.value = .atom (.name text) → r.name t.span.start text = text) :
    r.token t = ⟨t.value, r.span t.span⟩ := by
  obtain ⟨value, span⟩ := t
  cases value with
  | atom a =>
    cases a with
    | name text => simp [token, atom, h text rfl]
    | _ => rfl
  | _ => rfl

theorem Recast.token_name {r : Recast} {t : Token} {text : List Char}
    (h : t.value = .atom (.name text)) :
    r.token t = ⟨.atom (.name (r.name t.span.start text)), r.span t.span⟩ := by
  rw [token, h]
  rfl

/-- Names are written over tokens that stand from an offset on, in a text that starts at the target: the
change gives the tokens at the places the names, and moves all tokens to where the new text has them. -/
structure Renames (r : Recast) (name : Nat → List Char) (ss : List Span) (offset target : Nat)
    (ts : List Token) : Prop where
  delimited : Delimited ts
  code : ∀ t ∈ ts, t.IsCode
  order : ss.Sublist (ts.map (·.span))
  words : ∀ t ∈ ts, t.span ∈ ss → ∃ text, t.value = .atom (.name text)
  names : ∀ s ∈ ss, IsName (name s.start)
  gives : ∀ t ∈ ts, ∀ text, t.value = .atom (.name text) →
    r.name t.span.start text = if t.span ∈ ss then name t.span.start else text
  place : ∀ n, offset ≤ n →
    r.place n = target + (n - offset) + written name ss n - overwritten ss n

namespace Renames

variable {r : Recast} {target k : Nat}

/-- Nothing is written over in front of the first place. -/
theorem place_before (h : Renames r name ss offset target ts) {n : Nat} (hn : offset ≤ n)
    (hlater : ∀ s ∈ ss, n ≤ s.start) : r.place n = target + (n - offset) := by
  obtain ⟨hwritten, hoverwritten⟩ := written_before name hlater
  rw [h.place n hn, hwritten, hoverwritten]
  rfl

/-- What stands before the tokens moves together with them. -/
theorem further (h : Renames r name ss offset target ts) (k : Nat) :
    Renames r name ss (offset + k) (target + k) ts where
  __ := h
  place n hn := by
    rw [h.place n (by omega)]
    omega

/-- A token before the first place stays what it is. -/
theorem kept {l : Lexeme} (h : Renames r name ss offset target (⟨l, offset, offset + k⟩ :: ts))
    (hpos : 0 < k) (hrest : ss.Sublist (ts.map (·.span))) (hlater : ∀ s ∈ ss, offset + k ≤ s.start) :
    Renames r name ss (offset + k) (target + k) ts ∧
      r.token ⟨l, offset, offset + k⟩ = ⟨l, target, target + k⟩ := by
  have hnot : (⟨offset, offset + k⟩ : Span) ∉ ss := by
    intro hmem
    have hle := hlater _ hmem
    simp only at hle
    omega
  have hstart : r.place offset = target := by
    rw [h.place_before (Nat.le_refl _) fun s hs => (Nat.le_add_right _ k).trans (hlater s hs)]
    simp
  have hstop : r.place (offset + k) = target + k := by
    rw [h.place_before (Nat.le_add_right _ _) hlater, Nat.add_sub_cancel_left]
  constructor
  · exact { h.further k with
      delimited := h.delimited.tail
      code := (List.forall_mem_cons.mp h.code).2
      order := hrest
      words := (List.forall_mem_cons.mp h.words).2
      gives := (List.forall_mem_cons.mp h.gives).2 }
  · rw [Recast.token_same fun text ht => (h.gives _ List.mem_cons_self text ht).trans (if_neg hnot)]
    simp only [Recast.span, hstart, hstop]

/-- The token at the first place becomes its name. -/
theorem head {text : List Char} (h : Renames r name (⟨offset, offset + k⟩ :: ss) offset target
      (⟨.atom (.name text), offset, offset + k⟩ :: ts)) (hpos : 0 < k)
    (hrest : ss.Sublist (ts.map (·.span))) (hlater : ∀ s ∈ ss, offset + k ≤ s.start)
    (hbehind : ∀ u ∈ ts, offset < u.span.start) :
    Renames r name ss (offset + k) (target + byteSize (name offset)) ts ∧
      r.token ⟨.atom (.name text), offset, offset + k⟩ =
        ⟨.atom (.name (name offset)), target, target + byteSize (name offset)⟩ := by
  have hother (u : Token) (hu : u ∈ ts) :
      u.span ∈ (⟨offset, offset + k⟩ : Span) :: ss ↔ u.span ∈ ss := by
    refine List.mem_cons.trans (or_iff_right fun hspan => ?_)
    have hlt := hbehind u hu
    rw [hspan] at hlt
    exact Nat.lt_irrefl _ hlt
  have hstart : r.place offset = target := by
    rw [h.place_before (Nat.le_refl _) (List.forall_mem_cons.mpr ⟨Nat.le_refl _, fun s hs =>
      (Nat.le_add_right _ k).trans (hlater s hs)⟩)]
    simp
  have hplace (n : Nat) (hn : offset + k ≤ n) : r.place n =
      target + byteSize (name offset) + (n - (offset + k)) + written name ss n - overwritten ss n := by
    obtain ⟨hwritten, hoverwritten⟩ := written_cons name ss (show (Span.mk offset (offset + k)).start < n
      from Nat.lt_of_lt_of_le (Nat.lt_add_of_pos_right hpos) hn)
    rw [h.place n (by omega), hwritten, hoverwritten]
    simp only
    omega
  have hstop : r.place (offset + k) = target + byteSize (name offset) := by
    obtain ⟨hwritten, hoverwritten⟩ := written_before name hlater
    rw [hplace _ (Nat.le_refl _), hwritten, hoverwritten, Nat.sub_self]
    rfl
  constructor
  · exact
      { delimited := h.delimited.tail
        code := (List.forall_mem_cons.mp h.code).2
        order := hrest
        words := fun u hu hmem => h.words u (List.mem_cons_of_mem _ hu) (List.mem_cons_of_mem _ hmem)
        names := (List.forall_mem_cons.mp h.names).2
        gives := fun u hu text ht =>
          (h.gives u (List.mem_cons_of_mem _ hu) text ht).trans (by simp only [hother u hu])
        place := hplace }
  · have hnew : r.name offset text = name offset :=
      (h.gives _ List.mem_cons_self text rfl).trans (if_pos List.mem_cons_self)
    rw [Recast.token_name rfl]
    simp only [Recast.span, hstart, hstop, hnew]

end Renames

namespace Laid

theorem places (h : Laid offset cs ts) (hss : ss.Sublist (ts.map (·.span))) :
    ∀ s ∈ ss, offset ≤ s.start ∧ s.start ≤ s.stop := by
  intro s hs
  obtain ⟨t, ht, rfl⟩ := List.mem_map.mp (hss.subset hs)
  exact ⟨h.le_start ht, Nat.le_of_lt (h.lined.1 t ht)⟩

/-- Where names are written over names, the tokens stand in the new text as before, with the new names in
their new places. -/
theorem renamed {r : Recast} {target : Nat} (h : Laid offset cs ts)
    (hr : Renames r name ss offset target ts) : Like cs (renamed name ss offset cs) ∧
      Laid target (renamed name ss offset cs) (ts.map r.token) := by
  induction h generalizing ss target with
  | @done offset =>
    obtain rfl := List.sublist_nil.mp hr.order
    exact ⟨.cut, .done⟩
  | @trivia offset text rest ts ht hrest ih =>
    obtain ⟨hlike, hlaid⟩ := ih (hr.further (byteSize text))
    rw [renamed_append (hrest.places hr.order)]
    exact ⟨hlike.append text, .trivia (hlike.trivia ht) hlaid⟩
  | @token offset l rest ts ht hf hrest ih =>
    have hpos := byteSize_pos (first_head hf).2.1
    rcases List.sublist_cons_iff.mp hr.order with horder | ⟨ss, rfl, horder⟩
    · have hlater := hrest.places horder
      obtain ⟨hnext, htoken⟩ := hr.kept hpos horder fun s hs => (hlater s hs).1
      obtain ⟨hlike, hlaid⟩ := ih hnext
      obtain ⟨ht', hf'⟩ := hlike.read (hr.code _ List.mem_cons_self).no_stray
        (fun a ha hnot => hrest.ends (t := ⟨l, offset, offset + byteSize l.text⟩) ha hnot hr.delimited)
        ⟨ht, hf⟩
      rw [renamed_append hlater, List.map_cons, htoken]
      exact ⟨hlike.append l.text, .token ht' hf' hlaid⟩
    · have hlater := hrest.places horder
      obtain ⟨text, rfl⟩ : ∃ text, l = .atom (.name text) :=
        hr.words _ List.mem_cons_self List.mem_cons_self
      obtain ⟨hnext, htoken⟩ := hr.head hpos horder (fun s hs => (hlater s hs).1) fun u hu => by
        have hle := hrest.le_start hu
        omega
      obtain ⟨hlike, hlaid⟩ := ih hnext
      have hname : IsName (name offset) := hr.names _ List.mem_cons_self
      obtain ⟨hold, hends⟩ := name_cut (atom_name (first_atom_iff.mp hf))
      obtain ⟨ht', hf'⟩ := name_read hname (hlike.ends_name hends)
      rw [renamed_head rfl rfl, List.map_cons, htoken]
      exact ⟨.name hold hname hlike, .token ht' hf' hlaid⟩

end Laid

end Formula
