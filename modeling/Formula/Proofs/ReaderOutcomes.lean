import Formula.Phrase.Reading
import Mathlib.Order.Lattice
import Mathlib.Tactic.Common

namespace Formula.Parser

variable {α β : Type}

theorem run_pure_eq_some {a b : α} {ts rest : List Token} :
    (pure a : Parser α).run ts = some (b, rest) ↔ a = b ∧ ts = rest := by
  change some (a, ts) = some (b, rest) ↔ _
  simp

theorem run_pure (a : α) (ts : List Token) : (pure a : Parser α).run ts = some (a, ts) := rfl

theorem run_bind (p : Parser α) (f : α → Parser β) (ts : List Token) :
    (p >>= f).run ts = (p.run ts).bind fun (a, rest) => (f a).run rest := by
  change (Parser.bind p f).run ts = _
  simp only [run, Parser.bind]
  rcases h : p.parse ts with ⟨_ | ⟨a, rest⟩, trace⟩ <;> simp

theorem run_bind_eq_some {p : Parser α} {f : α → Parser β} {ts rest : List Token} {b : β} :
    (p >>= f).run ts = some (b, rest) ↔
      ∃ a mid, p.run ts = some (a, mid) ∧ (f a).run mid = some (b, rest) := by
  rw [run_bind, Option.bind_eq_some_iff]
  constructor
  · rintro ⟨⟨a, mid⟩, hp, hf⟩
    exact ⟨a, mid, hp, hf⟩
  · rintro ⟨a, mid, hp, hf⟩
    exact ⟨(a, mid), hp, hf⟩

/-- A choice gives the first reader's result, and the second's where the first has none. -/
theorem run_orElse (p q : Parser α) (ts : List Token) :
    (p <|> q).run ts = (p.run ts).or (q.run ts) := by
  change (Parser.orElse p fun _ => q).run ts = _
  simp only [run, Parser.orElse]
  rcases h : p.parse ts with ⟨_ | ⟨a, rest⟩, trace⟩ <;> simp

theorem run_goal (g : Goal) (p : Parser α) (ts : List Token) : (goal g p).run ts = p.run ts := by
  simp only [run, goal]
  rcases h : p.parse ts with ⟨_ | ⟨a, rest⟩, trace⟩ <;> simp

theorem run_here (ts : List Token) : here.run ts = some (startOf ts, ts) := rfl

theorem run_expect_cons (goals : List Goal) (f : Token → Option α) (t : Token) (ts : List Token) :
    (expect goals f).run (t :: ts) = (f t).map fun a => (a, ts) := by
  simp only [run, expect]
  rcases f t <;> simp

theorem run_expect_nil (goals : List Goal) (f : Token → Option α) :
    (expect goals f).run [] = none := rfl

theorem run_expect_eq_some {goals : List Goal} {f : Token → Option α} {ts rest : List Token}
    {a : α} : (expect goals f).run ts = some (a, rest) ↔ ∃ t, ts = t :: rest ∧ f t = some a := by
  cases ts with
  | nil => simp [run_expect_nil]
  | cons t ts =>
    rw [run_expect_cons, Option.map_eq_some_iff]
    constructor
    · rintro ⟨b, hf, he⟩
      obtain ⟨rfl, rfl⟩ := Prod.mk.inj he
      exact ⟨t, rfl, hf⟩
    · rintro ⟨u, hu, hf⟩
      obtain ⟨rfl, rfl⟩ := List.cons.inj hu
      exact ⟨a, hf, rfl⟩

theorem run_sign_cons (s : Symbol) (t : Token) (ts : List Token) :
    (sign s).run (t :: ts) = if t.value = .symbol s then some (t, ts) else none := rfl

theorem run_sign_nil (s : Symbol) : (sign s).run [] = none := rfl

theorem run_sign_eq_some {s : Symbol} {ts rest : List Token} {t : Token} :
    (sign s).run ts = some (t, rest) ↔ ts = t :: rest ∧ t.value = .symbol s := by
  cases ts with
  | nil => simp [run_sign_nil]
  | cons u us =>
    rw [run_sign_cons]
    split_ifs with hu
    · constructor
      · intro h
        obtain ⟨rfl, rfl⟩ := Prod.mk.inj (Option.some.inj h)
        exact ⟨rfl, hu⟩
      · rintro ⟨he, _⟩
        obtain ⟨rfl, rfl⟩ := List.cons.inj he
        rfl
    · constructor
      · intro h
        cases h
      · rintro ⟨he, hv⟩
        obtain ⟨rfl, rfl⟩ := List.cons.inj he
        exact absurd hv hu

/-- A reader that may be missing gives nothing, and takes nothing, where it fails. -/
theorem run_optional (p : Parser α) (ts : List Token) :
    (optional p).run ts = some (match p.run ts with
      | some (a, rest) => (some a, rest)
      | none => (none, ts)) := by
  simp only [run, optional]
  rcases h : p.parse ts with ⟨_ | ⟨a, rest⟩, trace⟩ <;> simp

def Advances (p : Parser α) : Prop :=
  ∀ ts a rest, p.run ts = some (a, rest) → rest.length < ts.length

def repeated (n : Nat) (p : Parser α) (ts : List Token) : List α × List Token :=
  (manyUpTo n p ts).1

theorem run_many (p : Parser α) (ts : List Token) :
    (many p).run ts = some (repeated ts.length p ts) := rfl

theorem repeated_zero (p : Parser α) (ts : List Token) : repeated 0 p ts = ([], ts) := rfl

theorem repeated_succ (n : Nat) (p : Parser α) (ts : List Token) :
    repeated (n + 1) p ts = match p.run ts with
      | some (a, rest) => (a :: (repeated n p rest).1, (repeated n p rest).2)
      | none => ([], ts) := by
  simp only [repeated, manyUpTo, run]
  rcases h : p.parse ts with ⟨_ | ⟨a, rest⟩, trace⟩ <;> simp

/-- Turns beyond the number of tokens change nothing. -/
theorem repeated_eq_of_length_le {p : Parser α} (hp : Advances p) {m n : Nat} {ts : List Token}
    (hm : ts.length ≤ m) (hn : ts.length ≤ n) : repeated m p ts = repeated n p ts := by
  induction m generalizing n ts with
  | zero =>
    have hts : ts = [] := List.length_eq_zero_iff.mp (by omega)
    subst hts
    cases n with
    | zero => rfl
    | succ n =>
      rw [repeated_zero, repeated_succ]
      rcases h : p.run [] with _ | ⟨a, rest⟩
      · rfl
      · exact absurd (hp _ _ _ h) (by simp)
  | succ m ih =>
    cases n with
    | zero =>
      have hts : ts = [] := List.length_eq_zero_iff.mp (by omega)
      subst hts
      rw [repeated_zero, repeated_succ]
      rcases h : p.run [] with _ | ⟨a, rest⟩
      · rfl
      · exact absurd (hp _ _ _ h) (by simp)
    | succ n =>
      rw [repeated_succ, repeated_succ]
      rcases h : p.run ts with _ | ⟨a, rest⟩
      · rfl
      -- A turn takes a token, so that both numbers of turns are enough for the rest, too.
      · have hlt := hp _ _ _ h
        have he : repeated m p rest = repeated n p rest := ih (by omega) (by omega)
        simp only [he]

/-- A repetition ends where its reader fails. -/
theorem run_many_stop {p : Parser α} {ts : List Token} (h : p.run ts = none) :
    (many p).run ts = some ([], ts) := by
  rw [run_many]
  cases hn : ts.length with
  | zero => rw [repeated_zero]
  | succ n => rw [repeated_succ, h]

/-- One turn of a repetition. -/
theorem run_many_step {p : Parser α} (hp : Advances p) {ts rest : List Token} {a : α}
    (h : p.run ts = some (a, rest)) :
    (many p).run ts = ((many p).run rest).map fun (as, left) => (a :: as, left) := by
  have hlt := hp _ _ _ h
  obtain ⟨n, hn⟩ : ∃ n, ts.length = n + 1 := ⟨ts.length - 1, by omega⟩
  have he : repeated n p rest = repeated rest.length p rest :=
    repeated_eq_of_length_le hp (by omega) le_rfl
  rw [run_many, run_many, hn, repeated_succ, h]
  simp only [he, Option.map_some]

/-- What holds of no turns, and of one turn before others, holds of a repetition. -/
theorem run_many_induction {p : Parser α} {R : List Token → List α → List Token → Prop}
    (hnil : ∀ ts, R ts [] ts)
    (hcons : ∀ ts a mid as rest, p.run ts = some (a, mid) → R mid as rest → R ts (a :: as) rest)
    {ts rest : List Token} {as : List α} (h : (many p).run ts = some (as, rest)) :
    R ts as rest := by
  have turns (n : Nat) : ∀ ts, R ts (repeated n p ts).1 (repeated n p ts).2 := by
    induction n with
    | zero => exact hnil
    | succ n ih =>
      intro ts
      rw [repeated_succ]
      rcases h : p.run ts with _ | ⟨a, mid⟩
      · exact hnil ts
      · exact hcons ts a mid _ _ h (ih mid)
  rw [run_many] at h
  have he := Option.some.inj h
  have ht := turns ts.length ts
  rw [he] at ht
  exact ht

end Formula.Parser
