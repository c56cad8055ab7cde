import Mathlib.Data.Finset.Card
import Formula.Function
import Formula.Proofs.EscapeSpellings

/-!
Registries of functions as they are built from registrations: these are sorted by name, those of one name
stay in the order they came in, and of each row of one name the last is kept. The entries that come of it are
those of the map that has the registrations put in one by one, and halving them finds what is registered.
The order of names by code points is the order of their bytes.
-/

namespace Formula

section ByteOrder

theorem byte_lt_iff {m n : Nat} (hm : m < 256) (hn : n < 256) : UInt8.ofNat m < UInt8.ofNat n ↔ m < n := by
  rw [UInt8.lt_iff_toNat_lt, byte_value hm, byte_value hn]

theorem byte_eq_iff {m n : Nat} (hm : m < 256) (hn : n < 256) : UInt8.ofNat m = UInt8.ofNat n ↔ m = n := by
  rw [← UInt8.toNat_inj, byte_value hm, byte_value hn]

/-- The bytes of the character with the lesser code point are less, whatever comes behind. -/
theorem utf8_char_lt {a b : Char} (h : a.toNat < b.toNat) (s t : List UInt8) :
    String.utf8EncodeChar a ++ s < String.utf8EncodeChar b ++ t := by
  obtain ⟨m, hm⟩ : ∃ m, a.toNat = m := ⟨_, rfl⟩
  obtain ⟨n, hn⟩ : ∃ n, b.toNat = n := ⟨_, rfl⟩
  have hbound : n < 1114112 := hn ▸ code_point_lt b
  have hlt : m < n := by omega
  have ha : a.val.toNat = m := hm
  have hb : b.val.toNat = n := hn
  have hm64 : m / 64 / 64 = m / 4096 := Nat.div_div_eq_div_mul m 64 64
  have hn64 : n / 64 / 64 = n / 4096 := Nat.div_div_eq_div_mul n 64 64
  have hm4096 : m / 4096 / 64 = m / 262144 := Nat.div_div_eq_div_mul m 4096 64
  have hn4096 : n / 4096 / 64 = n / 262144 := Nat.div_div_eq_div_mul n 4096 64
  have hm8 : m / 262144 % 8 = m / 262144 := Nat.mod_eq_of_lt (by omega)
  have hn8 : n / 262144 % 8 = n / 262144 := Nat.mod_eq_of_lt (by omega)
  -- A longer form has the greater lead byte; forms of one length are compared six bits at a time.
  simp only [String.utf8EncodeChar, ha, hb, hm8, hn8]
  split_ifs <;>
    simp (disch := omega) only [List.cons_append, List.nil_append, List.cons_lt_cons_iff, byte_lt_iff,
      byte_eq_iff] <;>
    omega

theorem utf8_char_ne_nil (c : Char) (s : List UInt8) : String.utf8EncodeChar c ++ s ≠ [] := by
  intro h
  have hlength := congrArg List.length h
  have hpos := c.utf8Size_pos
  rw [List.length_append, String.length_utf8EncodeChar, List.length_nil] at hlength
  omega

/-- The order of names is the order of their bytes. -/
theorem utf8_lt_of_order {as bs : List Char} (h : nameOrder as bs = .lt) : utf8Bytes as < utf8Bytes bs := by
  induction as generalizing bs with
  | nil =>
    cases bs with
    | nil => simp [nameOrder] at h
    | cons b bs =>
      obtain ⟨x, xs, hx⟩ := List.exists_cons_of_ne_nil (utf8_char_ne_nil b (utf8Bytes bs))
      rw [utf8Bytes, utf8Bytes, hx]
      exact List.nil_lt_cons x xs
  | cons a as ih =>
    cases bs with
    | nil => simp [nameOrder] at h
    | cons b bs =>
      simp only [nameOrder] at h
      split_ifs at h with hlt hgt
      · exact utf8_char_lt hlt _ _
      · obtain rfl : a = b := Char.toNat_inj.1 (by omega)
        exact List.append_left_lt (ih h)

end ByteOrder

namespace NameMap

variable {α : Type} {a b c : String × α} {bindings : List (String × α)} {m m' : NameMap α} {name : String}

def upTo (a b : String × α) : Bool := nameOrder a.1.toList b.1.toList != .gt

def sorted (bindings : List (String × α)) : List (String × α) := bindings.mergeSort upTo

/-- Puts a binding on top of others, or its value in place of the one on top if that has its name. -/
def putLast (top : List (String × α)) (b : String × α) : List (String × α) :=
  match top with
  | [] => [b]
  | last :: before => if last.1 = b.1 then (last.1, b.2) :: before else b :: last :: before

def merged (bindings : List (String × α)) : List (String × α) := (bindings.foldl putLast []).reverse

def searchBetween (entries : Array (String × α)) (name : String) (low high : Nat) : Option α :=
  if h : low < high ∧ high ≤ entries.size then
    let middle := low + (high - low) / 2
    have hmiddle : middle < entries.size := by omega
    if nameOrder entries[middle].1.toList name.toList = .lt then searchBetween entries name (middle + 1) high
    else if nameOrder entries[middle].1.toList name.toList = .eq then some entries[middle].2
    else searchBetween entries name low middle
  else none
termination_by high - low
decreasing_by all_goals omega

def search (m : NameMap α) (name : String) : Option α :=
  searchBetween m.entries.toArray name 0 m.entries.length

section Order

theorem nameOrder_swap_lt {as bs : List Char} : nameOrder as bs = .gt ↔ nameOrder bs as = .lt := by
  refine ⟨nameOrder_lt_of_gt, fun h => ?_⟩
  cases hc : nameOrder as bs with
  | gt => rfl
  | eq =>
    rw [nameOrder_eq_iff.1 hc, nameOrder_eq_iff.2 rfl] at h
    contradiction
  | lt =>
    have hself := nameOrder_lt_trans h hc
    rw [nameOrder_eq_iff.2 rfl] at hself
    contradiction

theorem upTo_iff : upTo a b = true ↔ Before a b ∨ a.1 = b.1 := by
  rw [upTo, Before, bne_iff_ne, ← String.toList_inj, ← nameOrder_eq_iff]
  cases nameOrder a.1.toList b.1.toList <;> simp

theorem Before.trans (h : Before a b) (h' : Before b c) : Before a c := nameOrder_lt_trans h h'

theorem Before.ne (h : Before a b) : a.1 ≠ b.1 := by
  intro he
  rw [Before, he, nameOrder_eq_iff.2 rfl] at h
  contradiction

theorem upTo_trans (a b c : String × α) (h : upTo a b = true) (h' : upTo b c = true) : upTo a c = true := by
  rw [upTo_iff] at h h' ⊢
  rcases h with h | h <;> rcases h' with h' | h'
  · exact .inl (h.trans h')
  · exact .inl (by rwa [Before, ← h'])
  · exact .inl (by rwa [Before, h])
  · exact .inr (h.trans h')

theorem upTo_total (a b : String × α) : (upTo a b || upTo b a) = true := by
  rw [Bool.or_eq_true]
  by_cases h : upTo a b = true
  · exact .inl h
  · rw [upTo, bne_iff_ne, not_not] at h
    exact .inr (upTo_iff.2 (.inl (nameOrder_swap_lt.1 h)))

theorem nodup_of_ascending {entries : List (String × α)} (h : entries.Pairwise Before) :
    (entries.map (·.1)).Nodup :=
  List.pairwise_map.2 (h.imp Before.ne)

theorem names_nodup (m : NameMap α) : m.names.Nodup := nodup_of_ascending m.ascending

/-- Where no name stands twice, what is found under a name is what stands there. -/
theorem find_value_iff {entries : List (String × α)} (h : (entries.map (·.1)).Nodup) {v : α} :
    (entries.find? (·.1 = name)).map (·.2) = some v ↔ (name, v) ∈ entries := by
  constructor
  · intro hfind
    obtain ⟨e, he, rfl⟩ := Option.map_eq_some_iff.1 hfind
    have hname : e.1 = name := by simpa using List.find?_some he
    exact hname ▸ List.mem_of_find?_eq_some he
  · intro hmem
    obtain ⟨e, he⟩ := Option.isSome_iff_exists.1
      (List.find?_isSome.2 ⟨(name, v), hmem, by simp⟩ : (entries.find? (·.1 = name)).isSome)
    have hname : e.1 = name := by simpa using List.find?_some he
    have heq : e = (name, v) := List.inj_on_of_nodup_map h (List.mem_of_find?_eq_some he) hmem hname
    rw [he, heq, Option.map_some]

theorem get_eq_some_iff {v : α} : m.get? name = some v ↔ (name, v) ∈ m.entries :=
  find_value_iff m.names_nodup

theorem eq_of_get (h : ∀ name, m.get? name = m'.get? name) : m.entries = m'.entries := by
  have hmem (e : String × α) : e ∈ m.entries ↔ e ∈ m'.entries := by
    rw [← get_eq_some_iff, ← get_eq_some_iff, h]
  have hperm := (List.perm_ext_iff_of_nodup (List.Nodup.of_map _ m.names_nodup)
    (List.Nodup.of_map _ m'.names_nodup)).2 hmem
  refine hperm.eq_of_pairwise (fun a b _ _ hab hba => ?_) m.ascending m'.ascending
  exact absurd rfl (Before.trans hab hba).ne

end Order

section Sorting

/-- Those of one name keep their order. -/
theorem filter_sorted (bindings : List (String × α)) (name : String) :
    (sorted bindings).filter (·.1 = name) = bindings.filter (·.1 = name) := by
  have hsame : (bindings.filter (·.1 = name)).Pairwise (fun a b => upTo a b = true) := by
    have hname {e : String × α} (he : e ∈ bindings.filter (·.1 = name)) : e.1 = name := by
      simpa using (List.mem_filter.1 he).2
    refine List.Pairwise.imp_of_mem (fun ha hb _ => upTo_iff.2 (.inr ?_)) (List.pairwise_of_forall fun _ _ => trivial)
    rw [hname ha, hname hb]
  have hsub := (List.sublist_mergeSort upTo_trans upTo_total hsame List.filter_sublist).filter (·.1 = name)
  rw [List.filter_filter] at hsub
  simp only [Bool.and_self] at hsub
  exact (hsub.eq_of_length ((List.mergeSort_perm bindings upTo).filter _).length_eq.symm).symm

/-- The loop keeps its entries in descending order. -/
theorem descending_foldl {top : List (String × α)} (htop : top.Pairwise (fun a b => Before b a))
    (hbindings : bindings.Pairwise (fun a b => upTo a b = true))
    (h : ∀ e ∈ top, ∀ b ∈ bindings, upTo e b = true) :
    (bindings.foldl putLast top).Pairwise (fun a b => Before b a) := by
  induction bindings generalizing top with
  | nil => exact htop
  | cons b bindings ih =>
    obtain ⟨hfirst, hrest⟩ := List.pairwise_cons.1 hbindings
    have hbefore : ∀ e ∈ top, upTo e b = true := fun e he => h e he b List.mem_cons_self
    have hlater : ∀ e ∈ top, ∀ c ∈ bindings, upTo e c = true :=
      fun e he c hc => h e he c (List.mem_cons_of_mem b hc)
    rw [List.foldl_cons]
    cases top with
    | nil =>
      refine ih (List.pairwise_singleton _ _) hrest ?_
      simpa [putLast] using hfirst
    | cons last before =>
      obtain ⟨hlast, hothers⟩ := List.pairwise_cons.1 htop
      simp only [putLast]
      split
      · rename_i hsame
        refine ih (List.pairwise_cons.2 ⟨hlast, hothers⟩) hrest ?_
        intro e he c hc
        rcases List.mem_cons.1 he with rfl | he
        · exact hlater last List.mem_cons_self c hc
        · exact hlater e (List.mem_cons_of_mem _ he) c hc
      · rename_i hnew
        have habove : Before last b := (upTo_iff.1 (hbefore last List.mem_cons_self)).resolve_right hnew
        refine ih (List.pairwise_cons.2 ⟨?_, htop⟩) hrest ?_
        · intro e he
          rcases List.mem_cons.1 he with rfl | he
          · exact habove
          · exact (hlast e he).trans habove
        · intro e he c hc
          rcases List.mem_cons.1 he with rfl | he
          · exact hfirst c hc
          · exact hlater e he c hc

theorem find_putLast (top : List (String × α)) (b : String × α) (name : String) :
    (putLast top b).find? (·.1 = name) = if b.1 = name then some b else top.find? (·.1 = name) := by
  cases top with
  | nil => by_cases h : b.1 = name <;> simp [putLast, h]
  | cons last before =>
    simp only [putLast]
    split
    · rename_i hsame
      rw [show (last.1, b.2) = b from Prod.ext hsame rfl]
      by_cases h : b.1 = name <;> simp [h, hsame]
    · by_cases h : b.1 = name <;> simp [h]

theorem find_foldl_putLast (bindings top : List (String × α)) (name : String) :
    (bindings.foldl putLast top).find? (·.1 = name) =
      (bindings.reverse.find? (·.1 = name)).or (top.find? (·.1 = name)) := by
  induction bindings generalizing top with
  | nil => rfl
  | cons b bindings ih =>
    rw [List.foldl_cons, ih, find_putLast, List.reverse_cons, List.find?_append, Option.or_assoc]
    by_cases h : b.1 = name <;> simp [h]

theorem ascending_merged (bindings : List (String × α)) : (merged (sorted bindings)).Pairwise Before := by
  rw [merged, List.pairwise_reverse]
  exact descending_foldl .nil (List.pairwise_mergeSort upTo_trans upTo_total bindings) (by simp)

def built (bindings : List (String × α)) : NameMap α := ⟨merged (sorted bindings), ascending_merged bindings⟩

theorem find_sorted (bindings : List (String × α)) (name : String) :
    (sorted bindings).reverse.find? (·.1 = name) = bindings.reverse.find? (·.1 = name) := by
  rw [← List.getLast?_filter, ← List.getLast?_filter, filter_sorted]

theorem get_built (bindings : List (String × α)) (name : String) :
    (built bindings).get? name = (bindings.reverse.find? (·.1 = name)).map (·.2) := by
  have hnodup := List.nodup_reverse.2 (built bindings).names_nodup
  rw [names, ← List.map_reverse] at hnodup
  refine Option.ext fun v => ?_
  rw [get_eq_some_iff, ← List.mem_reverse, ← find_value_iff hnodup]
  simp only [built, merged, List.reverse_reverse, find_foldl_putLast, List.find?_nil, Option.or_none, find_sorted]

theorem find_last (bindings : List (String × α)) (name : String) :
    (ofList bindings).get? name = (bindings.reverse.find? (·.1 = name)).map (·.2) := by
  rw [get_ofList]
  induction bindings.reverse with
  | nil => rfl
  | cons b bs ih =>
    obtain ⟨key, value⟩ := b
    by_cases h : name = key
    · simp [h]
    · rw [List.lookup_cons, beq_eq_false_iff_ne.2 h, ih, List.find?_cons_of_neg (by simpa using Ne.symm h)]

theorem entries_ofList (bindings : List (String × α)) : (ofList bindings).entries = merged (sorted bindings) :=
  @eq_of_get _ _ (built bindings) fun name => by rw [find_last, get_built]

end Sorting

section Search

theorem lt_of_before {entries : Array (String × α)} (h : entries.toList.Pairwise Before) {i j : Nat}
    (hi : i < entries.size) (hj : j < entries.size) (hbefore : Before entries[i] entries[j]) : i < j := by
  have hindex {k l : Nat} (hkl : k < l) (hl : l < entries.size) : Before entries[k] entries[l] :=
    List.pairwise_iff_getElem.1 h k l (by simpa using hkl.trans hl) (by simpa using hl) hkl
  rcases Nat.lt_trichotomy i j with hij | rfl | hij
  · exact hij
  · exact absurd rfl hbefore.ne
  · exact absurd rfl (hbefore.trans (hindex hij hi)).ne

/-- Halving a part of the entries finds the name if only that part may have it. -/
theorem searchBetween_eq_some_iff {entries : Array (String × α)} (h : entries.toList.Pairwise Before)
    {low high : Nat} (hhigh : high ≤ entries.size)
    (hpart : ∀ i, ∀ hi : i < entries.size, entries[i].1 = name → low ≤ i ∧ i < high) {v : α} :
    searchBetween entries name low high = some v ↔ (name, v) ∈ entries := by
  fun_induction searchBetween entries name low high with
  | case1 low high hopen middle hmiddle hlt ih =>
    refine ih hhigh fun i hi hname => ⟨?_, (hpart i hi hname).2⟩
    exact lt_of_before h hmiddle hi (by rwa [Before, hname])
  | case2 low high hopen middle hmiddle _ heq =>
    have hname : entries[middle].1 = name := String.toList_inj.1 (nameOrder_eq_iff.1 heq)
    have hmem : (name, entries[middle].2) ∈ entries := hname ▸ Array.getElem_mem hmiddle
    rw [Option.some_inj]
    refine ⟨fun hv => hv ▸ hmem, fun hv => ?_⟩
    have heq := List.inj_on_of_nodup_map (nodup_of_ascending h) (Array.mem_def.1 hmem) (Array.mem_def.1 hv) rfl
    exact (Prod.mk.inj heq).2
  | case3 low high hopen middle hmiddle hlt heq ih =>
    have hgt : nameOrder entries[middle].1.toList name.toList = .gt := by
      cases hc : nameOrder entries[middle].1.toList name.toList with
      | lt => exact absurd hc hlt
      | eq => exact absurd hc heq
      | gt => rfl
    refine ih (by omega) fun i hi hname => ⟨(hpart i hi hname).1, ?_⟩
    exact lt_of_before h hi hmiddle (by rw [Before, hname]; exact nameOrder_lt_of_gt hgt)
  | case4 low high hclosed =>
    refine iff_of_false (Option.some_ne_none v).symm fun hmem => ?_
    obtain ⟨i, hi, hentry⟩ := Array.getElem_of_mem hmem
    have hi' := hpart i hi (by rw [hentry])
    omega

theorem search_eq_get (m : NameMap α) (name : String) : m.search name = m.get? name := by
  refine Option.ext fun v => ?_
  have hall (i : Nat) (hi : i < m.entries.toArray.size) : 0 ≤ i ∧ i < m.entries.length := by simpa using hi
  rw [search, searchBetween_eq_some_iff m.ascending (by simp) fun i hi _ => hall i hi, get_eq_some_iff,
    List.mem_toArray]

end Search

section Names

/-- The names come one before the other by their bytes. -/
theorem names_ascending (m : NameMap α) :
    m.names.Pairwise fun a b => utf8Bytes a.toList < utf8Bytes b.toList :=
  List.pairwise_map.2 (m.ascending.imp utf8_lt_of_order)

theorem mem_names_iff : name ∈ (ofList bindings).names ↔ name ∈ bindings.map (·.1) := by
  have hnames : name ∈ (ofList bindings).names ↔ ∃ v, (ofList bindings).get? name = some v := by
    simp only [names, List.mem_map, get_eq_some_iff, Prod.exists, exists_and_right, exists_eq_right]
  rw [hnames, ← Option.isSome_iff_exists, find_last, Option.isSome_map, List.find?_isSome]
  simp only [List.mem_reverse, decide_eq_true_eq, List.mem_map]

theorem size_ofList (bindings : List (String × α)) :
    (ofList bindings).size = (bindings.map (·.1)).toFinset.card := by
  have hset : (bindings.map (·.1)).toFinset = (ofList bindings).names.toFinset :=
    Finset.ext fun name => by rw [List.mem_toFinset, List.mem_toFinset, mem_names_iff]
  rw [hset, List.toFinset_card_of_nodup (names_nodup _), names, List.length_map, size]

end Names

end NameMap

/-- A registry has under each name the function that was registered last under it, its names stand once
each in the order of their bytes, and it has as many entries as there are different names. Its entries are
the registrations sorted by name and merged, and halving them finds what it has. -/
theorem last_registration_wins (registrations : List (String × Function)) :
    let registry : Registry := NameMap.ofList registrations
    registry.entries = NameMap.merged (NameMap.sorted registrations) ∧
      (∀ name, registry.search name = registry.get? name) ∧
      (∀ name, registry.get? name = (registrations.filter (·.1 = name)).getLast?.map (·.2)) ∧
      registry.names.Pairwise (fun a b => utf8Bytes a.toList < utf8Bytes b.toList) ∧
      (∀ name, registry.names.count name = if name ∈ registrations.map (·.1) then 1 else 0) ∧
      registry.size = (registrations.map (·.1)).toFinset.card := by
  intro registry
  have hlast (name : String) :
      registry.get? name = (registrations.filter (·.1 = name)).getLast?.map (·.2) := by
    rw [NameMap.find_last, List.getLast?_filter]
  have hcount (name : String) :
      registry.names.count name = if name ∈ registrations.map (·.1) then 1 else 0 := by
    rw [(NameMap.names_nodup registry).count]
    exact if_congr NameMap.mem_names_iff rfl rfl
  exact ⟨NameMap.entries_ofList registrations, NameMap.search_eq_get registry, hlast,
    NameMap.names_ascending registry, hcount, NameMap.size_ofList registrations⟩

example : (NameMap.ofList [("f", 1), ("g", 2), ("f", 3), ("é", 4), ("f", 5)]).entries =
    [("f", 5), ("g", 2), ("é", 4)] := by decide

end Formula
