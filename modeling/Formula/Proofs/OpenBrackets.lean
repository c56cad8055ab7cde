import Formula.Nesting
import Mathlib.Data.List.Basic
import Mathlib.Tactic.Common

namespace Formula.Nesting

def deepest : Nat → List (Nat × Bool) → Nat
  | depth, [] => depth
  | depth, (_, true) :: rest => deepest (depth + 1) rest
  | depth, (_, false) :: rest => max depth (deepest (depth - 1) rest)

theorem le_deepest (depth : Nat) (bs : List (Nat × Bool)) : depth ≤ deepest depth bs := by
  induction bs generalizing depth with
  | nil => exact Nat.le_refl depth
  | cons b bs ih =>
    obtain ⟨offset, _ | _⟩ := b
    · exact Nat.le_max_left _ _
    · exact Nat.le_trans (Nat.le_succ depth) (ih (depth + 1))

theorem deepest_le (depth : Nat) (bs : List (Nat × Bool)) :
    deepest depth bs ≤ depth + bs.length := by
  induction bs generalizing depth with
  | nil => exact Nat.le_refl depth
  | cons b bs ih =>
    rcases b with ⟨offset, _ | _⟩
    · have hle := ih (depth - 1)
      simp only [deepest, List.length_cons]
      omega
    · have hle := ih (depth + 1)
      simp only [deepest, List.length_cons]
      omega

/-- No bracket opens too deep exactly when the limit bounds the brackets open at once. -/
theorem firstDeeper_eq_none_iff {limit depth : Nat} (bs : List (Nat × Bool))
    (h : depth ≤ limit) : firstDeeper? limit depth bs = none ↔ deepest depth bs ≤ limit := by
  induction bs generalizing depth with
  | nil => simpa [firstDeeper?, deepest] using h
  | cons b bs ih =>
    obtain ⟨offset, _ | _⟩ := b
    · rw [firstDeeper?, deepest, ih (by omega)]
      omega
    · rw [firstDeeper?, deepest]
      split_ifs with hlt
      · have hle := le_deepest (depth + 1) bs
        simp only [false_iff]
        omega
      · exact ih (by omega)

def opened (bs : List (Nat × Bool)) : Nat := bs.countP (·.2)

def closed (bs : List (Nat × Bool)) : Nat := bs.countP (!·.2)

def Fed (depth : Nat) (bs : List (Nat × Bool)) : Prop :=
  ∀ pre post, bs = pre ++ post → closed pre ≤ depth + opened pre

theorem fed_of_opening {depth offset : Nat} {bs : List (Nat × Bool)}
    (h : Fed depth ((offset, true) :: bs)) : Fed (depth + 1) bs := by
  rintro pre post rfl
  have hle := h ((offset, true) :: pre) post rfl
  simp only [closed, opened, List.countP_cons] at hle ⊢
  simp at hle
  omega

theorem fed_of_closing {depth offset : Nat} {bs : List (Nat × Bool)}
    (h : Fed depth ((offset, false) :: bs)) : 0 < depth ∧ Fed (depth - 1) bs := by
  have hpos : 0 < depth := by
    have hle := h [(offset, false)] bs rfl
    simp [closed, opened] at hle
    omega
  refine ⟨hpos, ?_⟩
  rintro pre post rfl
  have hle := h ((offset, false) :: pre) post rfl
  simp only [closed, opened, List.countP_cons] at hle ⊢
  simp at hle
  omega

def OpensFirst (limit depth : Nat) (bs : List (Nat × Bool)) (offset : Nat) : Prop :=
  ∃ pre post, bs = pre ++ (offset, true) :: post ∧ limit < depth + opened pre + 1 - closed pre ∧
    ∀ pre' offset' post', pre = pre' ++ (offset', true) :: post' →
      depth + opened pre' + 1 - closed pre' ≤ limit

theorem opensFirst_opening {limit depth offset o : Nat} {bs : List (Nat × Bool)} :
    OpensFirst limit depth ((o, true) :: bs) offset ↔
      limit < depth + 1 ∧ offset = o ∨ depth + 1 ≤ limit ∧ OpensFirst limit (depth + 1) bs offset := by
  constructor
  · rintro ⟨pre, post, he, hlt, hfirst⟩
    cases pre with
    | nil =>
      obtain ⟨hb, rfl⟩ := List.cons.inj he
      obtain ⟨rfl, -⟩ := Prod.mk.inj hb
      exact .inl ⟨by simpa [opened, closed] using hlt, rfl⟩
    | cons b pre =>
      obtain ⟨rfl, rfl⟩ := List.cons.inj he
      have hle : depth + 1 ≤ limit := by simpa [opened, closed] using hfirst [] o pre rfl
      refine .inr ⟨hle, pre, post, rfl, ?_, ?_⟩
      · simp [opened, closed] at hlt ⊢
        omega
      · rintro pre' offset' post' rfl
        have hle' := hfirst ((o, true) :: pre') offset' post' rfl
        simp [opened, closed] at hle' ⊢
        omega
  · rintro (⟨hlt, rfl⟩ | ⟨hle, pre, post, rfl, hlt, hfirst⟩)
    · exact ⟨[], bs, rfl, by simpa [opened, closed] using hlt, fun pre' _ _ he => by simp at he⟩
    · refine ⟨(o, true) :: pre, post, rfl, ?_, ?_⟩
      · simp [opened, closed] at hlt ⊢
        omega
      · intro pre' offset' post' he
        cases pre' with
        | nil => simpa [opened, closed] using hle
        | cons b pre' =>
          obtain ⟨rfl, rfl⟩ := List.cons.inj he
          have hle' := hfirst pre' offset' post' rfl
          simp [opened, closed] at hle' ⊢
          omega

theorem opensFirst_closing {limit depth offset o : Nat} {bs : List (Nat × Bool)}
    (hpos : 0 < depth) : OpensFirst limit depth ((o, false) :: bs) offset ↔
      OpensFirst limit (depth - 1) bs offset := by
  constructor
  · rintro ⟨pre, post, he, hlt, hfirst⟩
    cases pre with
    | nil => simp at he
    | cons b pre =>
      obtain ⟨rfl, rfl⟩ := List.cons.inj he
      refine ⟨pre, post, rfl, ?_, ?_⟩
      · simp [opened, closed] at hlt ⊢
        omega
      · rintro pre' offset' post' rfl
        have hle' := hfirst ((o, false) :: pre') offset' post' rfl
        simp [opened, closed] at hle' ⊢
        omega
  · rintro ⟨pre, post, rfl, hlt, hfirst⟩
    refine ⟨(o, false) :: pre, post, rfl, ?_, ?_⟩
    · simp [opened, closed] at hlt ⊢
      omega
    · intro pre' offset' post' he
      cases pre' with
      | nil => simp at he
      | cons b pre' =>
        obtain ⟨rfl, rfl⟩ := List.cons.inj he
        have hle' := hfirst pre' offset' post' rfl
        simp [opened, closed] at hle' ⊢
        omega

/-- What the search finds is the first bracket that opens beyond the limit. -/
theorem firstDeeper_eq_some_iff {limit depth offset : Nat} {bs : List (Nat × Bool)}
    (h : Fed depth bs) (hle : depth ≤ limit) :
    firstDeeper? limit depth bs = some offset ↔ OpensFirst limit depth bs offset := by
  induction bs generalizing depth with
  | nil => simp [firstDeeper?, OpensFirst]
  | cons b bs ih =>
    -- The depth never falls below zero in a fed row, so the search counts as the definition does.
    obtain ⟨o, _ | _⟩ := b
    · obtain ⟨hpos, hfed⟩ := fed_of_closing h
      rw [firstDeeper?, ih hfed (by omega), opensFirst_closing hpos]
    · rw [firstDeeper?, opensFirst_opening]
      split_ifs with hlt
      · simp only [Option.some.injEq]
        constructor
        · rintro rfl
          exact .inl ⟨hlt, rfl⟩
        · rintro (⟨-, rfl⟩ | ⟨hnot, -⟩)
          · rfl
          · omega
      · rw [ih (fed_of_opening h) (by omega)]
        constructor
        · exact fun hopens => .inr ⟨by omega, hopens⟩
        · rintro (⟨hlt', -⟩ | ⟨-, hopens⟩)
          · exact absurd hlt' hlt
          · exact hopens

inductive Paired : List (Nat × Bool) → Prop
  | nil : Paired []
  | wrap (a b : Nat) {inner rest : List (Nat × Bool)} (hinner : Paired inner) (hrest : Paired rest) :
      Paired ((a, true) :: (inner ++ (b, false) :: rest))

theorem Paired.append {as bs : List (Nat × Bool)} (ha : Paired as) (hb : Paired bs) :
    Paired (as ++ bs) := by
  induction ha with
  | nil => exact hb
  | wrap a b hinner _ _ ih => simpa using Paired.wrap a b hinner ih

/-- Brackets in pairs add their own depth to what is open before them, and leave it as it was. -/
theorem Paired.deepest_append {bs : List (Nat × Bool)} (h : Paired bs) (depth : Nat)
    (rest : List (Nat × Bool)) :
    deepest depth (bs ++ rest) = max (depth + deepest 0 bs) (deepest depth rest) := by
  induction h generalizing depth rest with
  | nil =>
    have hle := le_deepest depth rest
    simp only [List.nil_append, deepest]
    omega
  | @wrap a b inner tail _ _ ihinner ihtail =>
    -- At any depth and before any rest; at zero before nothing it is the depth of the pair alone.
    have whole (depth : Nat) (rest : List (Nat × Bool)) :
        deepest depth ((a, true) :: (inner ++ (b, false) :: (tail ++ rest))) =
          max (depth + 1 + deepest 0 inner)
            (max (depth + deepest 0 tail) (deepest depth rest)) := by
      rw [deepest, ihinner, deepest, Nat.add_sub_cancel, ihtail]
      omega
    have hown := whole 0 []
    simp only [List.append_nil] at hown
    rw [hown, List.cons_append, List.append_assoc, List.cons_append, whole]
    have hnil : deepest 0 [] = 0 := rfl
    omega

/-- A pair of brackets is one level deeper than what is inside. -/
theorem Paired.deepest_wrap {inner rest : List (Nat × Bool)} (hi : Paired inner)
    (a b : Nat) : deepest 0 ((a, true) :: (inner ++ (b, false) :: rest)) =
      max (deepest 0 inner + 1) (deepest 0 rest) := by
  rw [deepest, hi.deepest_append, deepest, Nat.add_sub_cancel]
  omega

theorem Paired.closed_eq_opened {bs : List (Nat × Bool)} (h : Paired bs) :
    closed bs = opened bs := by
  induction h with
  | nil => rfl
  | wrap a b _ _ ihinner ihrest =>
    simp [closed, opened] at ihinner ihrest ⊢
    omega

theorem Paired.fed {bs : List (Nat × Bool)} (h : Paired bs) (depth : Nat) : Fed depth bs := by
  have prefixes : ∀ pre post, bs = pre ++ post → closed pre ≤ opened pre := by
    induction h with
    | nil =>
      intro pre post he
      obtain ⟨rfl, -⟩ := List.append_eq_nil_iff.mp he.symm
      exact Nat.le_refl _
    | @wrap a b inner rest hinner _ ihinner ihrest =>
      intro pre post he
      have hbalance := hinner.closed_eq_opened
      cases pre with
      | nil => exact Nat.le_refl _
      | cons c pre =>
        obtain ⟨rfl, htail⟩ := List.cons.inj he
        rcases List.append_eq_append_iff.mp htail with ⟨mid, rfl, hrest⟩ | ⟨mid, hinner', -⟩
        · cases mid with
          | nil =>
            simp [closed, opened] at hbalance ⊢
            omega
          | cons d mid =>
            obtain ⟨rfl, hbehind⟩ := List.cons.inj hrest
            have hle := ihrest mid post hbehind
            simp [closed, opened] at hbalance hle ⊢
            omega
        · have hle := ihinner pre mid hinner'
          simp [closed, opened] at hle ⊢
          omega
  intro pre post he
  have hle := prefixes pre post he
  omega

end Formula.Nesting
