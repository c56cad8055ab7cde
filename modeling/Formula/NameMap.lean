namespace Formula

/-- Order of names by code points; a name comes before those that it starts. -/
def nameOrder : List Char → List Char → Ordering
  | [], [] => .eq
  | [], _ :: _ => .lt
  | _ :: _, [] => .gt
  | a :: as, b :: bs =>
    if a.toNat < b.toNat then .lt else if b.toNat < a.toNat then .gt else nameOrder as bs

theorem nameOrder_eq_iff {as bs : List Char} : nameOrder as bs = .eq ↔ as = bs := by
  induction as generalizing bs with
  | nil => cases bs <;> simp [nameOrder]
  | cons a as ih =>
    cases bs with
    | nil => simp [nameOrder]
    | cons b bs =>
      simp only [nameOrder, List.cons.injEq]
      split
      · simp; intro h; subst h; omega
      · split
        · simp; intro h; subst h; omega
        · have : a = b := Char.toNat_inj.1 (by omega)
          simp [this, ih]

theorem nameOrder_lt_trans {as bs cs : List Char} (h : nameOrder as bs = .lt)
    (h' : nameOrder bs cs = .lt) : nameOrder as cs = .lt := by
  induction as generalizing bs cs with
  | nil => cases bs <;> cases cs <;> simp_all [nameOrder]
  | cons a as ih =>
    cases bs with
    | nil => simp [nameOrder] at h
    | cons b bs =>
      cases cs with
      | nil => simp [nameOrder] at h'
      | cons c cs =>
        simp only [nameOrder] at h h' ⊢
        split at h
        · split at h'
          · rw [if_pos (by omega)]
          · split at h'
            · contradiction
            · rw [if_pos (by omega)]
        · split at h
          · contradiction
          · split at h'
            · rw [if_pos (by omega)]
            · split at h'
              · contradiction
              · rw [if_neg (by omega), if_neg (by omega)]
                exact ih h h'

theorem nameOrder_lt_of_gt {as bs : List Char} (h : nameOrder as bs = .gt) :
    nameOrder bs as = .lt := by
  induction as generalizing bs with
  | nil => cases bs <;> simp [nameOrder] at h
  | cons a as ih =>
    cases bs with
    | nil => rfl
    | cons b bs =>
      simp only [nameOrder] at h ⊢
      split at h
      · contradiction
      · split at h
        · rw [if_pos (by omega)]
        · rw [if_neg (by omega), if_neg (by omega)]
          exact ih h

namespace NameMap

variable {α : Type}

def Before (a b : String × α) : Prop := nameOrder a.1.toList b.1.toList = .lt

def insertEntry (name : String) (value : α) : List (String × α) → List (String × α)
  | [] => [(name, value)]
  | entry :: rest =>
    match nameOrder name.toList entry.1.toList with
    | .lt => (name, value) :: entry :: rest
    | .eq => (name, value) :: rest
    | .gt => entry :: insertEntry name value rest

theorem mem_insertEntry {name : String} {value : α} {entries : List (String × α)}
    {e : String × α} (h : e ∈ insertEntry name value entries) : e = (name, value) ∨ e ∈ entries := by
  induction entries with
  | nil => simpa [insertEntry] using h
  | cons entry rest ih =>
    simp only [insertEntry] at h
    split at h
    · simpa using h
    · rcases List.mem_cons.1 h with h | h
      · exact .inl h
      · exact .inr (List.mem_cons_of_mem _ h)
    · rcases List.mem_cons.1 h with h | h
      · exact .inr (h ▸ List.mem_cons_self)
      · exact (ih h).imp_right (List.mem_cons_of_mem _)

theorem pairwise_insertEntry (name : String) (value : α) {entries : List (String × α)}
    (h : entries.Pairwise Before) : (insertEntry name value entries).Pairwise Before := by
  induction entries with
  | nil => simp [insertEntry]
  | cons entry rest ih =>
    have ⟨first, later⟩ := List.pairwise_cons.1 h
    simp only [insertEntry]
    split
    · rename_i before
      refine List.pairwise_cons.2 ⟨?_, h⟩
      intro e he
      rcases List.mem_cons.1 he with rfl | he
      · exact before
      · exact nameOrder_lt_trans before (first e he)
    · rename_i same
      have : name.toList = entry.1.toList := nameOrder_eq_iff.1 same
      refine List.pairwise_cons.2 ⟨?_, later⟩
      intro e he
      have := first e he
      simp only [Before] at this ⊢
      simp_all
    · rename_i after
      refine List.pairwise_cons.2 ⟨?_, ih later⟩
      intro e he
      rcases mem_insertEntry he with rfl | he
      · exact nameOrder_lt_of_gt after
      · exact first e he

end NameMap

structure NameMap (α : Type) where
  entries : List (String × α) := []
  ascending : entries.Pairwise NameMap.Before := by exact List.Pairwise.nil

namespace NameMap

variable {α : Type}

def empty : NameMap α := {}

def insert (m : NameMap α) (name : String) (value : α) : NameMap α :=
  ⟨insertEntry name value m.entries, pairwise_insertEntry name value m.ascending⟩

def erase (m : NameMap α) (name : String) : NameMap α :=
  ⟨m.entries.filter (fun e => e.1 ≠ name), m.ascending.filter _⟩

def get? (m : NameMap α) (name : String) : Option α :=
  (m.entries.find? (fun e => e.1 = name)).map (·.2)

def names (m : NameMap α) : List String := m.entries.map (·.1)

def size (m : NameMap α) : Nat := m.entries.length

def ofList (bindings : List (String × α)) : NameMap α :=
  bindings.foldl (fun m (name, value) => m.insert name value) empty

theorem mem_entries_of_get {m : NameMap α} {name : String} {value : α}
    (h : m.get? name = some value) : (name, value) ∈ m.entries := by
  obtain ⟨e, he, rfl⟩ := Option.map_eq_some_iff.mp h
  have hname : e.1 = name := by simpa using List.find?_some he
  exact hname ▸ List.mem_of_find?_eq_some he

theorem mem_entries_of_foldl {bindings : List (String × α)} {m : NameMap α} {e : String × α}
    (h : e ∈ (bindings.foldl (fun m (name, value) => m.insert name value) m).entries) :
    e ∈ m.entries ∨ e ∈ bindings := by
  induction bindings generalizing m with
  | nil => exact .inl h
  | cons b bs ih =>
    rcases ih h with h | h
    · rcases mem_insertEntry h with rfl | h
      · exact .inr List.mem_cons_self
      · exact .inl h
    · exact .inr (List.mem_cons_of_mem b h)

/-- A map has no other bindings than those that it is made of. -/
theorem mem_of_mem_ofList {bindings : List (String × α)} {e : String × α}
    (h : e ∈ (ofList bindings).entries) : e ∈ bindings :=
  (mem_entries_of_foldl h).resolve_left (nomatch ·)

theorem find_insertEntry (key name : String) (value : α) (entries : List (String × α)) :
    ((insertEntry key value entries).find? fun e => e.1 = name).map (·.2) =
      if key = name then some value else (entries.find? fun e => e.1 = name).map (·.2) := by
  induction entries with
  | nil => by_cases h : key = name <;> simp [insertEntry, h]
  | cons entry rest ih =>
    simp only [insertEntry]
    split
    · by_cases h : key = name <;> simp [h]
    · rename_i same
      have : key = entry.1 := String.toList_inj.1 (nameOrder_eq_iff.1 same)
      by_cases h : key = name <;> simp [← this, h]
    · rename_i after
      have : key ≠ entry.1 := by
        intro he
        rw [nameOrder_eq_iff.2 (congrArg String.toList he)] at after
        contradiction
      by_cases h : entry.1 = name
      · have : key ≠ name := h ▸ this
        simp [h, this]
      · simpa [h] using ih

/-- A name that is bound anew has its new value, every other name what it had. -/
theorem get_insert (m : NameMap α) (key name : String) (value : α) :
    (m.insert key value).get? name = if key = name then some value else m.get? name :=
  find_insertEntry key name value m.entries

/-- A name that is removed has no value, every other name what it had. -/
theorem get_erase (m : NameMap α) (key name : String) :
    (m.erase key).get? name = if key = name then none else m.get? name := by
  simp only [get?, erase, List.find?_filter, ne_eq, decide_not, Bool.not_eq_true',
    decide_eq_false_iff_not, decide_eq_true_eq]
  split
  · rename_i same
    have : ∀ e ∈ m.entries, ¬decide (¬e.1 = key ∧ e.1 = name) = true := by simp [same]
    rw [List.find?_eq_none.2 this, Option.map_none]
  · rename_i different
    have : ∀ e : String × α, (¬e.1 = key ∧ e.1 = name) ↔ e.1 = name :=
      fun e => and_iff_right_of_imp fun he hkey => different (hkey.symm.trans he)
    simp only [this]

theorem get_foldl (bindings : List (String × α)) (m : NameMap α) (name : String) :
    (bindings.foldl (fun m (name, value) => m.insert name value) m).get? name =
      (bindings.reverse.lookup name).or (m.get? name) := by
  induction bindings generalizing m with
  | nil => rfl
  | cons b bs ih =>
    have last : [b].lookup name = if b.1 = name then some b.2 else none := by
      obtain ⟨key, value⟩ := b
      by_cases h : name = key
      · rw [h, List.lookup_cons_self, if_pos rfl]
      · rw [List.lookup_cons, beq_eq_false_iff_ne.2 h, if_neg (Ne.symm h), List.lookup_nil]
    rw [List.foldl_cons, ih, get_insert, List.reverse_cons, List.lookup_append, last, Option.or_assoc]
    split <;> rfl

/-- The last binding of a name counts. -/
theorem get_ofList (bindings : List (String × α)) (name : String) :
    (ofList bindings).get? name = bindings.reverse.lookup name :=
  (get_foldl bindings empty name).trans Option.or_none

end NameMap

end Formula
