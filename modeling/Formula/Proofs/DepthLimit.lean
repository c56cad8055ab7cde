import Formula.Compile
import Formula.Proofs.OpenBrackets
import Formula.Proofs.Precedence

/-!
The limit on nesting. Building under a limit either meets the limit or gives what it gives under
every greater one, and the least limit that is enough is known: the height of the tree, the depth
of the brackets, and one more than the longest run of operators before an operand.
-/

namespace Formula

mutual

def Expr.height : Expr → Nat
  | .constant _ _ | .ident _ _ => 1
  | .unary _ _ e | .group _ e => e.height + 1
  | .arith _ _ l r | .compare _ _ l r | .logic _ _ l r | .index _ l r => max l.height r.height + 1
  | .call _ _ args => Expr.heights args + 1
  | .composite _ es => Expr.heights es + 1

def Expr.heights : List Expr → Nat
  | [] => 0
  | e :: es => max e.height (Expr.heights es)

end

mutual

/-- The longest run of operators before one operand, in the phrase and in the phrases that are built
inside it. The length of an array type is never built. -/
def Phrase.longestRun : Phrase → Nat
  | .last o _ => max o.signCount o.runWithin
  | .join o _ rest => max (max o.signCount o.runWithin) rest.longestRun

def Operand.runWithin : Operand → Nat
  | .atom _ => 0
  | .group _ inner => inner.longestRun
  | .call _ _ args => Phrase.longestRuns args
  | .composite _ _ elements => Element.longestRuns elements
  | .index base position _ => max base.runWithin position.longestRun
  | .signed _ operand => operand.runWithin

def Phrase.longestRuns : List Phrase → Nat
  | [] => 0
  | p :: ps => max p.longestRun (Phrase.longestRuns ps)

def Element.longestRuns : List Element → Nat
  | [] => 0
  | e :: es => max e.longestRun (Element.longestRuns es)

def Element.longestRun : Element → Nat
  | .plain value => value.longestRun
  | .keyed _ _ _ => 0

end

/-- The levels that a run of operators asks for: none for no run, else one more than its length. -/
def runLevels (run : Nat) : Nat := if run = 0 then 0 else run + 1

theorem runLevels_max (m n : Nat) : runLevels (max m n) = max (runLevels m) (runLevels n) := by
  simp only [runLevels]
  split_ifs <;> omega

theorem bind_eq_ok {ε α β : Type} {x : Except ε α} {f : α → Except ε β} {b : β} :
    x >>= f = .ok b ↔ ∃ a, x = .ok a ∧ f a = .ok b := by
  cases x with
  | error e =>
    constructor
    · intro h
      cases h
    · rintro ⟨a, ha, -⟩
      cases ha
  | ok a =>
    constructor
    · exact fun h => ⟨a, rfl, h⟩
    · rintro ⟨a', ha, h⟩
      obtain rfl := Except.ok.inj ha
      exact h

theorem exists_ok {ε α : Type} {x : Except ε α} (h : x.isOk = true) : ∃ a, x = .ok a := by
  cases x with
  | error e => cases h
  | ok a => exact ⟨a, rfl⟩

theorem exists_error {ε α : Type} {x : Except ε α} (h : x.isOk = false) : ∃ e, x = .error e := by
  cases x with
  | error e => exact ⟨e, rfl⟩
  | ok a => cases h

/-- A result that passes a check. -/
theorem exists_checked {ε α : Type} {x : Except ε α} {check : α → Bool}
    (h : x.toOption.any check = true) : ∃ a, x = .ok a ∧ check a = true := by
  cases x with
  | error e => cases h
  | ok a => exact ⟨a, rfl, h⟩

theorem Phrase.buildAll_cons {limit : Nat} {p : Phrase} {ps : List Phrase} {bs : List Built} :
    buildAll limit (p :: ps) = .ok bs ↔
      ∃ b bs', p.build limit = .ok b ∧ buildAll limit ps = .ok bs' ∧ b :: bs' = bs := by
  simp only [buildAll, bind_eq_ok, exists_and_left]
  exact exists_congr fun b => and_congr_right fun _ => exists_congr fun bs' =>
    and_congr_right fun _ => ⟨Except.ok.inj, congrArg _⟩

theorem Element.buildAll_cons {limit : Nat} {e : Element} {es : List Element} {bs : List Built} :
    buildAll limit (e :: es) = .ok bs ↔
      ∃ b bs', e.build limit = .ok b ∧ buildAll limit es = .ok bs' ∧ b :: bs' = bs := by
  simp only [buildAll, bind_eq_ok, exists_and_left]
  exact exists_congr fun b => and_congr_right fun _ => exists_congr fun bs' =>
    and_congr_right fun _ => ⟨Except.ok.inj, congrArg _⟩

namespace Built

def Honest (b : Built) : Prop := b.height = b.expr.height

def AllHonest (bs : List Built) : Prop := highest bs = Expr.heights (bs.map (·.expr))

theorem highest_cons (b : Built) (bs : List Built) :
    highest (b :: bs) = max b.height (highest bs) := by
  simp only [highest]
  split_ifs <;> omega

theorem highest_pair (l r : Built) : highest [l, r] = max l.height r.height := by
  rw [highest_cons, highest_cons]
  exact congrArg (max l.height) (Nat.max_zero r.height)

variable {α β : Type}

/-- A computation under a limit. A greater limit gives the same, unless the limit was the fault; a
result is given under exactly those limits that reach its measure and meet a demand; and results are
good. -/
structure Graded (measure : α → Nat) (good : α → Prop) (demand : Nat → Prop)
    (f : Nat → Except Flaw α) : Prop where
  steady : ∀ d d', d ≤ d' → (∀ span, f d ≠ .error (tooDeep d span)) → f d' = f d
  exact : ∀ d a, f d = .ok a → ∀ d', f d' = .ok a ↔ measure a ≤ d' ∧ demand d'
  sound : ∀ d a, f d = .ok a → good a

theorem graded_error (measure : α → Nat) (good : α → Prop) (demand : Nat → Prop) (flaw : Flaw) :
    Graded measure good demand fun _ => .error flaw :=
  ⟨fun _ _ _ _ => rfl, fun _ _ h => (nomatch h), fun _ _ h => (nomatch h)⟩

/-- Two limits that give results give the same result. -/
theorem Graded.eq_of_ok {m : α → Nat} {G : α → Prop} {P : Nat → Prop} {f : Nat → Except Flaw α}
    (hf : Graded m G P f) {d d' : Nat} {a a' : α} (h : f d = .ok a) (h' : f d' = .ok a') :
    a' = a := by
  rcases Nat.le_total d d' with hle | hle
  · have he := hf.steady d d' hle (by simp [h])
    rw [h, h'] at he
    exact Except.ok.inj he
  · have he := hf.steady d' d hle (by simp [h'])
    rw [h, h'] at he
    exact (Except.ok.inj he).symm

theorem Graded.congr {m : α → Nat} {G : α → Prop} {P Q : Nat → Prop} {f : Nat → Except Flaw α}
    (hf : Graded m G P f) (h : ∀ d, P d ↔ Q d) : Graded m G Q f :=
  ⟨hf.steady, fun d a ha d' => (hf.exact d a ha d').trans (and_congr Iff.rfl (h d')), hf.sound⟩

/-- One computation after another whose results measure no less. -/
theorem Graded.bind {m : α → Nat} {m' : β → Nat} {G : α → Prop} {G' : β → Prop} {P Q : Nat → Prop}
    {f : Nat → Except Flaw α} {g : Nat → α → Except Flaw β} (hf : Graded m G P f)
    (hg : ∀ d a, f d = .ok a → G a → Graded m' G' Q fun d => g d a)
    (hm : ∀ d d' a b, f d = .ok a → g d' a = .ok b → m a ≤ m' b) :
    Graded m' G' (fun d => P d ∧ Q d) fun d => f d >>= g d := by
  constructor
  · intro d d' hle hne
    change (∀ span, (f d).bind (g d) ≠ _) at hne
    change (f d').bind (g d') = (f d).bind (g d)
    cases h : f d with
    | error flaw =>
      have hf' := hf.steady d d' hle fun span he => hne span (by rw [he]; rfl)
      rw [hf', h]
      rfl
    | ok a =>
      have hf' := hf.steady d d' hle (by simp [h])
      have hg' := (hg d a h (hf.sound d a h)).steady d d' hle
        fun span he => hne span (by rw [h]; exact he)
      rw [hf', h]
      exact hg'
  · intro d b h d'
    obtain ⟨a, ha, h⟩ := bind_eq_ok.mp h
    have hab := hm d d a b ha h
    have hb := (hg d a ha (hf.sound d a ha)).exact d b h d'
    rw [bind_eq_ok]
    constructor
    · rintro ⟨a', ha', h'⟩
      -- Another limit may have led to another `a'`; it is the same one.
      obtain rfl := hf.eq_of_ok ha ha'
      have hq := hb.mp h'
      exact ⟨hq.1, ((hf.exact d a' ha d').mp ha').2, hq.2⟩
    · rintro ⟨hle, hp, hq⟩
      exact ⟨a, (hf.exact d a ha d').mpr ⟨by omega, hp⟩, hb.mpr ⟨hle, hq⟩⟩
  · intro d b h
    obtain ⟨a, ha, h⟩ := bind_eq_ok.mp h
    exact (hg d a ha (hf.sound d a ha)).sound d b h

/-- A check before a computation whose fault is nesting too deep. -/
theorem Graded.check {m : α → Nat} {G : α → Prop} {P Q : Nat → Prop} {f : Nat → Except Flaw α}
    {fault : Nat → Option Flaw} (hf : Graded m G P f) (hnone : ∀ d, fault d = none ↔ Q d)
    (hsome : ∀ d flaw, fault d = some flaw → ∃ span, flaw = tooDeep d span)
    (hmono : ∀ d d', d ≤ d' → Q d → Q d') :
    Graded m G (fun d => Q d ∧ P d) fun d => match fault d with
      | some flaw => .error flaw
      | none => f d := by
  constructor
  · intro d d' hle hne
    cases h : fault d with
    | some flaw =>
      obtain ⟨span, rfl⟩ := hsome d flaw h
      exact absurd (by rw [h]) (hne span)
    | none =>
      have h' := (hnone d').mpr (hmono d d' hle ((hnone d).mp h))
      simp only [h] at hne
      simp only [h']
      exact hf.steady d d' hle hne
  · intro d a h d'
    cases hd : fault d with
    | some flaw => simp [hd] at h
    | none =>
      simp only [hd] at h
      cases hd' : fault d' with
      | some flaw =>
        have hnot : ¬Q d' := fun hq => by simp [(hnone d').mpr hq] at hd'
        simp [hnot]
      | none =>
        have hq := (hnone d').mp hd'
        simpa [hq] using hf.exact d a h d'
  · intro d a h
    cases hd : fault d with
    | some flaw => simp [hd] at h
    | none =>
      simp only [hd] at h
      exact hf.sound d a h

theorem above_eq_ok {d below : Nat} {e : Expr} {b : Built} (h : above d e below = .ok b) :
    b = ⟨e, below + 1⟩ := by
  simp only [above] at h
  split_ifs at h
  exact (Except.ok.inj h).symm

/-- A node is built under the limits that reach its height. -/
theorem graded_above (e : Expr) {below : Nat} (he : e.height = below + 1) :
    Graded height Honest (fun _ => True) fun d => above d e below := by
  constructor
  · intro d d' hle hne
    by_cases h : d < below + 1
    · exact absurd (if_pos h) (hne e.span)
    · have h' : ¬d' < below + 1 := by omega
      simp only [above, if_neg h, if_neg h']
  · intro d b h d'
    simp only [above] at h ⊢
    split_ifs at h
    obtain rfl := Except.ok.inj h
    simp
  · intro d b h
    rw [above_eq_ok h]
    exact he.symm

/-- Joining two operands needs the level above the higher one. -/
theorem graded_join {l r : Built} (hl : l.Honest) (hr : r.Honest) (op : Placed InfixOp) :
    Graded height Honest (fun _ => True) fun d => join d l op r := by
  have hbelow : highest [l, r] = max l.expr.height r.expr.height := by rw [highest_pair, hl, hr]
  simp only [join]
  cases op.value.meaning? with
  | none => exact graded_error _ _ _ _
  | some meaning => cases meaning <;> exact graded_above _ (congrArg Nat.succ hbelow.symm)

theorem height_le_of_join {d : Nat} {l r b : Built} {op : Placed InfixOp}
    (h : join d l op r = .ok b) : l.height ≤ b.height ∧ r.height ≤ b.height := by
  simp only [join] at h
  split at h
  case h_4 => cases h
  all_goals
    obtain rfl := above_eq_ok h
    change _ ≤ highest [_, _] + 1 ∧ _ ≤ highest [_, _] + 1
    rw [highest_pair]
    omega

theorem graded_index {base position : Built} (hb : base.Honest) (hp : position.Honest)
    (stop : Nat) : Graded height Honest (fun _ => True) fun d => index d base position stop := by
  have hbelow : highest [base, position] = max base.expr.height position.expr.height := by
    rw [highest_pair, hb, hp]
  simp only [index]
  cases indexFault? _ _ _ with
  | some flaw => exact graded_error _ _ _ _
  | none => exact graded_above _ (congrArg Nat.succ hbelow.symm)

theorem height_le_of_index {d stop : Nat} {base position b : Built}
    (h : index d base position stop = .ok b) :
    base.height ≤ b.height ∧ position.height ≤ b.height := by
  simp only [index] at h
  split at h
  · cases h
  · obtain rfl := above_eq_ok h
    change _ ≤ highest [_, _] + 1 ∧ _ ≤ highest [_, _] + 1
    rw [highest_pair]
    omega

theorem graded_atom (a : Placed Atom) :
    Graded height Honest (fun _ => True) fun d => atom d a := by
  obtain ⟨value, span⟩ := a
  simp only [atom]
  cases value with
  | name text => exact graded_above _ rfl
  | _ =>
    simp only
    split
    · exact graded_above _ rfl
    · exact graded_error _ _ _ _

theorem height_of_atom {d : Nat} {a : Placed Atom} {b : Built} (h : atom d a = .ok b) :
    b.height = 1 := by
  simp only [atom] at h
  split at h
  · rw [above_eq_ok h]
  · split at h
    · rw [above_eq_ok h]
    · cases h

theorem graded_sign (op : Placed PrefixOp) (operand : Operand) {built : Built}
    (hb : built.Honest) :
    Graded height Honest (fun _ => True) fun d => sign d op operand built := by
  simp only [sign]
  cases op.value.meaning? with
  | none => exact graded_error _ _ _ _
  | some o =>
    simp only
    split
    · exact graded_above _ rfl
    · exact graded_above _ (congrArg Nat.succ hb.symm)

/-- An operator makes its operand no lower: only a literal is folded into another literal. -/
theorem height_le_of_sign {d d' : Nat} {op : Placed PrefixOp} {operand : Operand} {built b : Built}
    (hb : operand.build d = .ok built) (h : sign d' op operand built = .ok b) :
    built.height ≤ b.height := by
  simp only [sign] at h
  split at h
  · cases h
  · split at h
    -- The operand that is folded into the literal is an atom, of height one.
    · next n hn =>
      obtain rfl := above_eq_ok h
      split at hn
      · rw [Operand.build] at hb
        exact Nat.le_of_eq (height_of_atom hb)
      · cases hn
    · obtain rfl := above_eq_ok h
      exact Nat.le_succ _

/-- A tree of operands under operators is built under the limits that its operands and its height
allow. -/
theorem graded_fold {c : Chain (Placed InfixOp) Operand} {demand : Operand → Nat → Prop}
    (h : c.All fun o => Graded height Honest (demand o) fun d => o.build d) :
    Graded height Honest (fun d => c.All fun o => demand o d)
      fun d => (c.bimap id fun o => o.build d).fold (join d) := by
  induction c with
  | leaf o => exact h
  | node l op r ihl ihr =>
    have hbind := (ihl h.1).bind
      (fun _ a _ ha => (ihr h.2).bind (fun _ b _ hb => graded_join ha hb op)
        (fun _ _ _ _ _ hj => (height_le_of_join hj).2))
      (fun _ _ a b _ hj => by
        obtain ⟨r', -, hj⟩ := bind_eq_ok.mp hj
        exact (height_le_of_join hj).1)
    simp only [Chain.bimap, Chain.fold_node]
    exact hbind.congr fun d => by simp only [Chain.All, and_true]

theorem graded_nil :
    Graded highest AllHonest (fun _ => True) fun _ => (.ok [] : Except Flaw (List Built)) := by
  refine ⟨fun _ _ _ _ => rfl, fun _ bs h _ => ?_, fun _ bs h => ?_⟩
  all_goals obtain rfl := Except.ok.inj h
  · simp [highest]
  · rfl

/-- Results of two computations, one put before the other. -/
theorem Graded.cons {P Q : Nat → Prop} {f : Nat → Except Flaw Built}
    {fs : Nat → Except Flaw (List Built)} (hf : Graded height Honest P f)
    (hfs : Graded highest AllHonest Q fs) :
    Graded highest AllHonest (fun d => P d ∧ Q d) fun d => do
      let b ← f d
      let bs ← fs d
      return b :: bs := by
  have ok_iff (d : Nat) (bs : List Built) : (do
      let b ← f d
      let bs ← fs d
      return b :: bs : Except Flaw (List Built)) = .ok bs ↔
        ∃ b bs', f d = .ok b ∧ fs d = .ok bs' ∧ b :: bs' = bs := by
    constructor
    · intro h
      obtain ⟨b, hb, h⟩ := bind_eq_ok.mp h
      obtain ⟨bs', hbs, h⟩ := bind_eq_ok.mp h
      exact ⟨b, bs', hb, hbs, Except.ok.inj h⟩
    · rintro ⟨b, bs', hb, hbs, rfl⟩
      rw [hb, hbs]
      rfl
  constructor
  · intro d d' hle hne
    cases h : f d with
    | error flaw =>
      have hf' := hf.steady d d' hle fun span he => hne span (by rw [he]; rfl)
      rw [hf', h]
      rfl
    | ok b =>
      have hfs' := hfs.steady d d' hle fun span he => hne span (by rw [h, he]; rfl)
      rw [hf.steady d d' hle (by simp [h]), hfs', h]
  · intro d as h d'
    obtain ⟨b, bs, hb, hbs, rfl⟩ := (ok_iff d as).mp h
    rw [ok_iff, highest_cons, Nat.max_le]
    constructor
    · rintro ⟨b', bs', hb', hbs', he⟩
      obtain ⟨rfl, rfl⟩ := List.cons.inj he
      have hle := (hf.exact d b' hb d').mp hb'
      have hles := (hfs.exact d bs' hbs d').mp hbs'
      exact ⟨⟨hle.1, hles.1⟩, hle.2, hles.2⟩
    · rintro ⟨⟨hle, hles⟩, hp, hq⟩
      exact ⟨b, bs, (hf.exact d b hb d').mpr ⟨hle, hp⟩, (hfs.exact d bs hbs d').mpr ⟨hles, hq⟩, rfl⟩
  · intro d as h
    obtain ⟨b, bs, hb, hbs, rfl⟩ := (ok_iff d as).mp h
    rw [AllHonest, highest_cons, hf.sound d b hb, hfs.sound d bs hbs]
    rfl

end Built

def Phrase.operands : Phrase → Operand × List (Placed InfixOp × Operand)
  | .last o _ => (o, [])
  | .join o op rest => (o, (op, rest.operands.1) :: rest.operands.2)

def Phrase.AllOperands (P : Operand → Prop) (p : Phrase) : Prop :=
  P p.operands.1 ∧ ∀ pair ∈ p.operands.2, P pair.2

theorem Phrase.allOperands_join {P : Operand → Prop} {o : Operand} {op : Placed InfixOp}
    {rest : Phrase} :
    (Phrase.join o op rest).AllOperands P ↔ P o ∧ rest.AllOperands P := by
  simp only [AllOperands, operands, List.forall_mem_cons]

/-- Induction over a phrase, from its last operand on. -/
@[elab_as_elim]
theorem Phrase.row_induction {P : Phrase → Prop} (last : ∀ o stop, P (.last o stop))
    (join : ∀ o op rest, P rest → P (.join o op rest)) : ∀ p, P p
  | .last o stop => last o stop
  | .join o op rest => join o op rest (row_induction last join rest)

theorem Phrase.row_eq (limit : Nat) : ∀ p : Phrase, p.row limit =
    (p.operands.1.build limit, p.operands.2.map fun (op, o) => (op, o.build limit))
  | .last o _ => rfl
  | .join o op rest => by
    rw [row, row_eq limit rest]
    rfl

def Phrase.tree (p : Phrase) : Chain (Placed InfixOp) Operand :=
  Chain.ofRow (fun op => op.value.precedence) p.operands.1 p.operands.2

/-- Operands are built in their places. -/
theorem Phrase.row_tree (limit : Nat) (p : Phrase) :
    Chain.ofRow (fun op : Placed InfixOp => op.value.precedence) (p.row limit).1 (p.row limit).2 =
      p.tree.bimap id fun o => o.build limit := by
  rw [row_eq]
  exact Chain.ofRow_bimap id (fun o : Operand => o.build limit) (fun _ => rfl) _ _

theorem Phrase.check_eq_none {limit stop : Nat} {o : Operand} :
    runFault?.check limit o stop = none ↔ runLevels o.signCount ≤ limit := by
  simp only [runFault?.check, runLevels]
  split_ifs <;> simp <;> omega

/-- No run of operators is at fault exactly when every run leaves the limit a level. -/
theorem Phrase.runFault_eq_none {limit : Nat} : ∀ p : Phrase,
    p.runFault? limit = none ↔ p.AllOperands fun o => runLevels o.signCount ≤ limit
  | .last o stop => by simp [runFault?, check_eq_none, AllOperands, operands]
  | .join o op rest => by
    rw [allOperands_join, runFault?, Option.or_eq_none_iff, check_eq_none, runFault_eq_none rest]

theorem Phrase.runFault_tooDeep {limit : Nat} {flaw : Flaw} : ∀ p : Phrase,
    p.runFault? limit = some flaw → ∃ span, flaw = Built.tooDeep limit span
  | .last o stop, h => by
    simp only [runFault?, runFault?.check] at h
    split_ifs at h
    exact ⟨_, (Option.some.inj h).symm⟩
  | .join o op rest, h => by
    rw [runFault?, Option.or_eq_some_iff] at h
    rcases h with h | ⟨-, h⟩
    · simp only [runFault?.check] at h
      split_ifs at h
      exact ⟨_, (Option.some.inj h).symm⟩
    · exact runFault_tooDeep rest h

theorem Phrase.runLevels_longestRun {limit : Nat} : ∀ p : Phrase,
    runLevels p.longestRun ≤ limit ↔ p.AllOperands (fun o => runLevels o.signCount ≤ limit) ∧
      p.AllOperands fun o => runLevels o.runWithin ≤ limit
  | .last o stop => by
    simp [longestRun, runLevels_max, AllOperands, operands]
  | .join o op rest => by
    rw [longestRun, runLevels_max, runLevels_max, allOperands_join, allOperands_join,
      Nat.max_le, Nat.max_le, runLevels_longestRun rest]
    tauto

namespace Built

/-- A phrase is built under the limits that its operands, their runs and its height allow. -/
theorem graded_assemble {p : Phrase}
    (h : p.AllOperands fun o =>
      Graded height Honest (fun d => runLevels o.runWithin ≤ d) fun d => o.build d) :
    Graded height Honest (fun d => runLevels p.longestRun ≤ d) fun d => p.assemble d (p.row d) := by
  have hfold : Graded height Honest (fun d => p.tree.All fun o => runLevels o.runWithin ≤ d)
      fun d => (p.tree.bimap id fun o => o.build d).fold (join d) :=
    graded_fold ((Chain.all_ofRow _ _ _).mpr h)
  simp only [Phrase.assemble, Phrase.row_tree]
  refine (hfold.check (fun d => Phrase.runFault_eq_none p)
    (fun d flaw => Phrase.runFault_tooDeep p) ?_).congr fun d => ?_
  · exact fun d d' hle hd => ⟨Nat.le_trans hd.1 hle, fun pair hp => Nat.le_trans (hd.2 pair hp) hle⟩
  · rw [Phrase.runLevels_longestRun, Phrase.tree, Chain.all_ofRow]
    rfl

mutual

theorem graded_operands : ∀ p : Phrase, p.AllOperands fun o =>
    Graded height Honest (fun d => runLevels o.runWithin ≤ d) fun d => o.build d
  | .last o _ => ⟨graded_operand o, fun _ h => nomatch h⟩
  | .join o _ rest => Phrase.allOperands_join.mpr ⟨graded_operand o, graded_operands rest⟩

theorem graded_operand : ∀ o : Operand,
    Graded height Honest (fun d => runLevels o.runWithin ≤ d) fun d => o.build d
  | .atom a => by
    simp only [Operand.build]
    exact (graded_atom a).congr fun d => by simp [Operand.runWithin, runLevels]
  | .group span inner => by
    simp only [Operand.build]
    refine ((graded_assemble (graded_operands inner)).bind
      (fun _ b _ hb => graded_above (.group span b.expr) (congrArg Nat.succ hb.symm))
      (fun _ _ a b _ h => ?_)).congr fun d => by rw [and_true]; rfl
    rw [above_eq_ok h]
    exact Nat.le_succ _
  | .call span name args => by
    simp only [Operand.build]
    refine ((graded_phrases args).bind
      (fun _ bs _ hbs => graded_above (.call span _ (bs.map (·.expr))) (congrArg Nat.succ hbs.symm))
      (fun _ _ a b _ h => ?_)).congr fun d => by rw [and_true]; rfl
    rw [above_eq_ok h]
    exact Nat.le_succ _
  | .composite span type elements => by
    simp only [Operand.build]
    cases typeFault? type with
    | some flaw => exact graded_error _ _ _ _
    | none =>
      refine ((graded_elements elements).bind
        (fun _ bs _ hbs =>
          graded_above (.composite span (bs.map (·.expr))) (congrArg Nat.succ hbs.symm))
        (fun _ _ a b _ h => ?_)).congr fun d => by rw [and_true]; rfl
      rw [above_eq_ok h]
      exact Nat.le_succ _
  | .index base position stop => by
    simp only [Operand.build]
    refine ((graded_operand base).bind (fun _ b _ hb =>
      (graded_assemble (graded_operands position)).bind (fun _ p _ hp => graded_index hb hp stop)
        (fun _ _ p b' _ h => (height_le_of_index h).2)) (fun _ _ b b' _ h => ?_)).congr fun d => ?_
    · obtain ⟨p, -, h⟩ := bind_eq_ok.mp h
      exact (height_le_of_index h).1
    · rw [Operand.runWithin, runLevels_max, Nat.max_le, and_true]
  | .signed op operand => by
    simp only [Operand.build]
    exact ((graded_operand operand).bind (fun _ b _ hb => graded_sign op operand hb)
      (fun _ _ b b' hb h => height_le_of_sign hb h)).congr fun d => by rw [and_true]; rfl

theorem graded_phrases : ∀ ps : List Phrase,
    Graded highest AllHonest (fun d => runLevels (Phrase.longestRuns ps) ≤ d)
      fun d => Phrase.buildAll d ps
  | [] => graded_nil.congr fun d => by simp [Phrase.longestRuns, runLevels]
  | p :: ps => by
    simp only [Phrase.buildAll]
    exact ((graded_assemble (graded_operands p)).cons (graded_phrases ps)).congr
      fun d => by rw [Phrase.longestRuns, runLevels_max, Nat.max_le]

theorem graded_elements : ∀ es : List Element,
    Graded highest AllHonest (fun d => runLevels (Element.longestRuns es) ≤ d)
      fun d => Element.buildAll d es
  | [] => graded_nil.congr fun d => by simp [Element.longestRuns, runLevels]
  | e :: es => by
    simp only [Element.buildAll]
    exact ((graded_element e).cons (graded_elements es)).congr
      fun d => by rw [Element.longestRuns, runLevels_max, Nat.max_le]

theorem graded_element : ∀ e : Element,
    Graded height Honest (fun d => runLevels e.longestRun ≤ d) fun d => e.build d
  | .plain value => by
    simp only [Element.build]
    exact graded_assemble (graded_operands value)
  | .keyed span _ _ => by
    simp only [Element.build]
    exact graded_error _ _ _ _

end

/-- A phrase is built under the limits that its runs and its height allow. -/
theorem graded_phrase (p : Phrase) :
    Graded height Honest (fun d => runLevels p.longestRun ≤ d) fun d => p.build d :=
  graded_assemble (graded_operands p)

end Built

/-- The greatest number of brackets that are open at once in a source, those in comments and quotes
left out. -/
def scannedDepth (source : List Char) : Nat := Nesting.deepest 0 (Nesting.brackets .code 0 source)

def longestRun (source : List Char) : Nat :=
  ((Phrase.ofTokens? (Token.list source)).map Phrase.longestRun).getD 0

namespace Built

def scanFault? (limit : Nat) (source : List Char) : Option Flaw :=
  (Nesting.firstDeeper? limit 0 (Nesting.brackets .code 0 source)).map fun offset =>
    tooDeep limit ⟨offset, offset + 1⟩

theorem scanFault_eq_none (d : Nat) (source : List Char) :
    scanFault? d source = none ↔ scannedDepth source ≤ d := by
  rw [scanFault?, Option.map_eq_none_iff]
  exact Nesting.firstDeeper_eq_none_iff _ (Nat.zero_le d)

theorem build_eq (d : Nat) (source : List Char) : build d source =
    match scanFault? d source with
    | some flaw => .error flaw
    | none => (Phrase.ofTokens? (Token.list source)).elim
      (.error (unreadable source (Token.list source))) fun phrase => phrase.build d := by
  rw [build, scanFault?]
  cases h : Nesting.firstDeeper? d 0 (Nesting.brackets .code 0 source) with
  | none => cases hp : Phrase.ofTokens? (Token.list source) <;> simp only [hp, Option.map_none, Option.elim]
  | some offset => rfl

theorem graded_source (source : List Char) :
    Graded height Honest
      (fun d => scannedDepth source ≤ d ∧ runLevels (longestRun source) ≤ d)
      fun d => build d source := by
  have hread : Graded height Honest (fun d => runLevels (longestRun source) ≤ d) fun d =>
      (Phrase.ofTokens? (Token.list source)).elim
        (.error (unreadable source (Token.list source))) fun phrase => phrase.build d := by
    simp only [longestRun]
    cases Phrase.ofTokens? (Token.list source) with
    | none => exact graded_error _ _ _ _
    | some phrase => exact graded_phrase phrase
  -- The scan of brackets is the check, and the build of what is read the computation behind it.
  have hscan := hread.check (fun d => scanFault_eq_none d source)
    (fun d flaw h => by
      obtain ⟨offset, -, rfl⟩ := Option.map_eq_some_iff.mp h
      exact ⟨_, rfl⟩)
    (fun d d' hle h => Nat.le_trans h hle)
  simp only [build_eq]
  exact hscan

end Built

theorem compile_eq_ok {limit : Nat} {source : String} {e : Expr} :
    compile limit source = .ok e ↔ ∃ b, build limit source.toList = .ok b ∧ b.expr = e := by
  rw [compile]
  cases build limit source.toList with
  | error flaw => simp
  | ok b => simp

/-- The limit on nesting decides on failure alone: a greater limit changes no other outcome, a tree
is no higher than the limit it was compiled under, and the limits under which a source compiles are
those that reach the height of its tree, the depth of its brackets, and one more than its longest
run of operators where it has one. -/
theorem compile_limit_exact (source : String) :
    (∀ d d', d ≤ d' →
      (∀ span, compile d source ≠ .error ((Built.tooDeep d span).inSource source)) →
        compile d' source = compile d source) ∧
    (∀ d e, compile d source = .ok e → e.height ≤ d) ∧
    ∀ d e, compile d source = .ok e → ∀ d' e', compile d' source = .ok e' ↔
      e' = e ∧ max (max e.height (scannedDepth source.toList))
        (runLevels (longestRun source.toList)) ≤ d' := by
  have hg := Built.graded_source source.toList
  have exact_limit : ∀ d b, build d source.toList = .ok b → ∀ d',
      build d' source.toList = .ok b ↔ max (max b.expr.height (scannedDepth source.toList))
        (runLevels (longestRun source.toList)) ≤ d' := by
    intro d b hb d'
    have hheight : b.height = b.expr.height := hg.sound d b hb
    rw [hg.exact d b hb d', hheight, Nat.max_le, Nat.max_le, and_assoc]
  refine ⟨fun d d' hle hne => ?_, fun d e he => ?_, fun d e he d' e' => ?_⟩
  · have hsteady := hg.steady d d' hle fun span hspan => hne span (by rw [compile, hspan])
    rw [compile, compile, hsteady]
  · obtain ⟨b, hb, rfl⟩ := compile_eq_ok.mp he
    have hle := (exact_limit d b hb d).mp hb
    omega
  · obtain ⟨b, hb, rfl⟩ := compile_eq_ok.mp he
    rw [compile_eq_ok, ← exact_limit d b hb d']
    constructor
    · rintro ⟨b', hb', rfl⟩
      obtain rfl := hg.eq_of_ok hb hb'
      exact ⟨rfl, hb'⟩
    · rintro ⟨rfl, hb'⟩
      exact ⟨b, hb', rfl⟩

/-- The least integer is a single node, but its minus sign asks for a second level. -/
theorem compile_least_integer_limits :
    ∃ e, ∀ d, compile d "-9223372036854775808" = .ok e ↔ 2 ≤ d := by
  obtain ⟨e, he⟩ : ∃ e, compile 2 "-9223372036854775808" = .ok e := exists_ok (by decide +kernel)
  have hbrackets : scannedDepth "-9223372036854775808".toList = 0 := by decide +kernel
  have hrun : runLevels (longestRun "-9223372036854775808".toList) = 2 := by decide +kernel
  obtain ⟨-, hheight, hexact⟩ := compile_limit_exact "-9223372036854775808"
  have hle := hheight 2 e he
  refine ⟨e, fun d => ?_⟩
  rw [hexact 2 e he d e, hbrackets, hrun]
  simp only [true_and]
  omega

end Formula
