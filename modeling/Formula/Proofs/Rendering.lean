import Formula.Proofs.BareTree
import Formula.Proofs.EscapedText
import Formula.Proofs.LiteralText

namespace Formula

namespace InfixOp.Meaning

def sign : Meaning → InfixOp
  | arith .add => .add
  | arith .sub => .sub
  | arith .mul => .mul
  | arith .div => .div
  | compare .eq => .eq
  | compare .ne => .ne
  | compare .lt => .lt
  | compare .le => .le
  | compare .gt => .gt
  | compare .ge => .ge
  | logic .and => .land
  | logic .or => .lor

def binding : Meaning → Nat
  | logic .or => 1
  | logic .and => 2
  | compare _ => 3
  | arith .add | arith .sub => 4
  | arith .mul | arith .div => 5

theorem sign_meaning (m : Meaning) : m.sign.meaning? = some m := by
  rcases m with o | o | o <;> cases o <;> rfl

theorem sign_precedence (m : Meaning) : m.sign.precedence = m.binding := by
  rcases m with o | o | o <;> cases o <;> rfl

theorem sign_ne (m : Meaning) : m.sign ≠ .band ∧ m.sign ≠ .andNot := by
  rcases m with o | o | o <;> cases o <;> decide

theorem binding_le (m : Meaning) : m.binding ≤ 5 := by
  rcases m with o | o | o <;> cases o <;> decide

end InfixOp.Meaning

def UnaryOp.sign : UnaryOp → Symbol
  | neg => .op .sub
  | not => .bang

def Literal.Writable : Literal → Prop
  | int n => 0 ≤ n
  | str _ => True
  | _ => False

def Literal.words : Literal → List (List Lexeme)
  | int n => [[.atom (.int (decimal n.toInt.toNat))]]
  | str s => [[.atom (.string (escapeText s.toList))]]
  | _ => []

def listed : List (List (List Lexeme)) → List (List Lexeme)
  | [] => []
  | [ws] => ws
  | ws :: rest => ws ++ [.symbol .comma] :: listed rest

def spaced : List (List Lexeme) → List Char
  | [] => []
  | [w] => w.flatMap Lexeme.text
  | w :: ws => w.flatMap Lexeme.text ++ ' ' :: spaced ws

namespace Expr

def binding : Expr → Nat
  | arith _ o _ _ => (InfixOp.Meaning.arith o).binding
  | compare _ o _ _ => (InfixOp.Meaning.compare o).binding
  | logic _ o _ _ => (InfixOp.Meaning.logic o).binding
  | unary _ _ _ => 6
  | index _ _ _ => 7
  | _ => 8

def enclosed (least : Nat) (e : Expr) : Expr := if e.binding < least then group ⟨0, 0⟩ e else e

def joined (span : Span) (m : InfixOp.Meaning) (l r : Expr) : Expr :=
  binary span m (l.enclosed m.binding) (r.enclosed (m.binding + 1))

mutual

def parenthesized : Expr → Expr
  | constant span value => constant span value
  | ident span name => ident span name
  | unary span o e => unary span o (e.parenthesized.enclosed 6)
  | arith span o l r => joined span (.arith o) l.parenthesized r.parenthesized
  | compare span o l r => joined span (.compare o) l.parenthesized r.parenthesized
  | logic span o l r => joined span (.logic o) l.parenthesized r.parenthesized
  | index span base position => index span (base.parenthesized.enclosed 7) position.parenthesized
  | call span name args => call span name (allParenthesized args)
  | composite span elements => composite span (allParenthesized elements)
  | group span inner => group span inner.parenthesized

def allParenthesized : List Expr → List Expr
  | [] => []
  | e :: es => e.parenthesized :: allParenthesized es

end

mutual

/-- The words of a tree. No blank stands within the head of a composite literal. -/
def words : Expr → List (List Lexeme)
  | constant _ value => value.words
  | ident _ name => [[.atom (.name name.toList)]]
  | unary _ o e => [.symbol o.sign] :: e.words
  | arith _ o l r => l.words ++ [.symbol (.op (InfixOp.Meaning.arith o).sign)] :: r.words
  | compare _ o l r => l.words ++ [.symbol (.op (InfixOp.Meaning.compare o).sign)] :: r.words
  | logic _ o l r => l.words ++ [.symbol (.op (InfixOp.Meaning.logic o).sign)] :: r.words
  | index _ base position =>
    base.words ++ [.symbol (.opening .square)] :: (position.words ++ [[.symbol (.closing .square)]])
  | call _ name args => [.atom (.name name.toList)] :: [.symbol (.opening .round)] ::
      (listed (allWords args) ++ [[.symbol (.closing .round)]])
  | composite _ elements =>
    [.symbol (.opening .square), .symbol (.closing .square), .atom (.name "lit".toList),
      .symbol (.opening .curly)] :: (listed (allWords elements) ++ [[.symbol (.closing .curly)]])
  | group _ inner =>
    [.symbol (.opening .round)] :: (inner.words ++ [[.symbol (.closing .round)]])

def allWords : List Expr → List (List (List Lexeme))
  | [] => []
  | e :: es => e.words :: allWords es

end

def rendered (e : Expr) : String := String.ofList (spaced e.parenthesized.words)

mutual

/-- The trees that are written: their constants are texts and numbers without sign, their names are
names, and no index fails whatever the variables hold. The word `map` starts a type, and only the name
of a function may be that word. -/
def Writable : Expr → Prop
  | constant _ value => value.Writable
  | ident _ name => IsName name.toList ∧ name ≠ "map"
  | unary _ _ e => e.Writable
  | arith _ _ l r | compare _ _ l r | logic _ _ l r => l.Writable ∧ r.Writable
  | index span base position =>
    base.Writable ∧ position.Writable ∧ Built.indexFault? span base position = none
  | call _ name args => IsName name.toList ∧ AllWritable args
  | composite _ elements => AllWritable elements
  | group _ inner => inner.Writable

def AllWritable : List Expr → Prop
  | [] => True
  | e :: es => e.Writable ∧ AllWritable es

end

theorem allParenthesized_eq (es : List Expr) : allParenthesized es = es.map parenthesized := by
  induction es with
  | nil => rfl
  | cons e es ih => rw [allParenthesized, ih, List.map_cons]

theorem forall_allParenthesized {P : Expr → Prop} {es : List Expr} (h : ∀ e ∈ es, P e.parenthesized) :
    ∀ e ∈ allParenthesized es, P e := by
  rw [allParenthesized_eq]
  exact List.forall_mem_map.mpr h

theorem allWords_eq (es : List Expr) : allWords es = es.map words := by
  induction es with
  | nil => rfl
  | cons e es ih => rw [allWords, ih, List.map_cons]

theorem allWritable_iff (es : List Expr) : AllWritable es ↔ ∀ e ∈ es, e.Writable := by
  induction es with
  | nil => simp [AllWritable]
  | cons e es ih => rw [AllWritable, ih, List.forall_mem_cons]

section

variable (span : Span) (m : InfixOp.Meaning) (l r : Expr)

theorem parenthesized_binary :
    (binary span m l r).parenthesized = joined span m l.parenthesized r.parenthesized := by
  cases m <;> rfl

theorem words_binary :
    (binary span m l r).words = l.words ++ [.symbol (.op m.sign)] :: r.words := by
  cases m <;> rfl

theorem writable_binary : (binary span m l r).Writable ↔ l.Writable ∧ r.Writable := by
  cases m <;> rfl

theorem binding_binary : (binary span m l r).binding = m.binding := by
  cases m <;> rfl

end

theorem le_binding_enclosed {least : Nat} (h : least ≤ 8) (e : Expr) :
    least ≤ (e.enclosed least).binding := by
  rw [enclosed]
  split_ifs with hlt
  · exact h
  · exact Nat.le_of_not_lt hlt

theorem bare_enclosed (least : Nat) (e : Expr) : (e.enclosed least).bare = e.bare := by
  rw [enclosed]
  split_ifs <;> rfl

/-- Parentheses are all that is added. -/
theorem bare_parenthesized (e : Expr) : e.parenthesized.bare = e.bare := by
  induction e using tree_induction with
  | constant | ident => rfl
  | unary span o e ih => rw [parenthesized, bare, bare_enclosed, ih, bare]
  | binary span m l r ihl ihr =>
    rw [parenthesized_binary, joined, bare_binary, bare_enclosed, bare_enclosed, ihl, ihr, bare_binary]
  | index span base position ihb ihp => rw [parenthesized, bare, bare_enclosed, ihb, ihp, bare]
  | call span name args ih | composite span args ih =>
    simp only [parenthesized, bare, bares_eq, allParenthesized_eq, List.map_map]
    exact congrArg _ (List.map_congr_left ih)
  | group span inner ih => exact ih

def lexemes (e : Expr) : List Lexeme := e.words.flatten

def listing (es : List Expr) : List Lexeme := (listed (allWords es)).flatten

theorem lexemes_unary (span : Span) (o : UnaryOp) (e : Expr) :
    (unary span o e).lexemes = .symbol o.sign :: e.lexemes := rfl

theorem lexemes_binary (span : Span) (m : InfixOp.Meaning) (l r : Expr) :
    (binary span m l r).lexemes = l.lexemes ++ .symbol (.op m.sign) :: r.lexemes := by
  rw [lexemes, words_binary, List.flatten_append]
  rfl

theorem lexemes_index (span : Span) (base position : Expr) :
    (index span base position).lexemes = base.lexemes ++
      .symbol (.opening .square) :: (position.lexemes ++ [.symbol (.closing .square)]) := by
  simp [lexemes, words]

theorem lexemes_call (span : Span) (name : String) (args : List Expr) :
    (call span name args).lexemes = .atom (.name name.toList) :: .symbol (.opening .round) ::
      (listing args ++ [.symbol (.closing .round)]) := by
  simp [lexemes, listing, words]

theorem lexemes_composite (span : Span) (es : List Expr) :
    (composite span es).lexemes = .symbol (.opening .square) :: .symbol (.closing .square) ::
      .atom (.name "lit".toList) :: .symbol (.opening .curly) ::
        (listing es ++ [.symbol (.closing .curly)]) := by
  simp [lexemes, listing, words]

theorem lexemes_group (span : Span) (e : Expr) : (group span e).lexemes =
    .symbol (.opening .round) :: (e.lexemes ++ [.symbol (.closing .round)]) := by
  simp [lexemes, words]

theorem listing_cons (e : Expr) {es : List Expr} (h : es ≠ []) :
    listing (e :: es) = e.lexemes ++ .symbol .comma :: listing es := by
  obtain ⟨f, es, rfl⟩ := List.exists_cons_of_ne_nil h
  simp [listing, allWords, listed, lexemes]

end Expr

end Formula
