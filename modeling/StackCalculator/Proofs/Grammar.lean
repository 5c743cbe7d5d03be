import StackCalculator.Proofs.Scanning
import StackCalculator.Tree.Basic

/-!
The grammar of expressions, once as derivations of token sequences and once as a condition on
parse trees. Neither mentions how a text is read, and neither has a limit on the number of
literals or on the nesting.
-/

namespace StackCalculator

/-- The three layers of the grammar. -/
inductive Nonterminal where
  | expression
  | term
  | factor

/-- Token sequences that the grammar derives:
`expression := term (('+' | '-') term)*`, `term := factor (('*' | '/') factor)*` and
`factor := NUMBER | '(' expression ')'`. A repetition grows at its end, one operator and operand
at a time. -/
inductive Derives : Nonterminal → List Token → Prop where
  | term {tokens : List Token} : Derives .term tokens → Derives .expression tokens
  | sum {left right : List Token} {sign : Token} :
      Derives .expression left → sign.kind = .plus ∨ sign.kind = .minus → Derives .term right →
      Derives .expression (left ++ sign :: right)
  | factor {tokens : List Token} : Derives .factor tokens → Derives .term tokens
  | product {left right : List Token} {sign : Token} :
      Derives .term left → sign.kind = .star ∨ sign.kind = .slash → Derives .factor right →
      Derives .term (left ++ sign :: right)
  | number {token : Token} : token.kind = .number → Derives .factor [token]
  | group {opening closing : Token} {inner : List Token} :
      opening.kind = .leftParen → Derives .expression inner → closing.kind = .rightParen →
      Derives .factor (opening :: (inner ++ [closing]))

/-- How many groups a sequence of tokens opens. -/
def opens (tokens : List Token) : Nat :=
  tokens.countP (·.kind = .leftParen)

/-- How many groups a sequence of tokens closes. -/
def closes (tokens : List Token) : Nat :=
  tokens.countP (·.kind = .rightParen)

/-- At no point of a sequence are more groups open than the limit allows. -/
def NestedWithin (limit : Nat) (tokens : List Token) : Prop :=
  ∀ before, before <+: tokens → opens before ≤ closes before + limit

@[simp] theorem opens_nil : opens [] = 0 :=
  rfl

@[simp] theorem closes_nil : closes [] = 0 :=
  rfl

@[simp] theorem opens_cons (token : Token) (tokens : List Token) :
    opens (token :: tokens) = opens tokens + if token.kind = .leftParen then 1 else 0 := by
  simp [opens, List.countP_cons]

@[simp] theorem closes_cons (token : Token) (tokens : List Token) :
    closes (token :: tokens) = closes tokens + if token.kind = .rightParen then 1 else 0 := by
  simp [closes, List.countP_cons]

@[simp] theorem opens_append (first second : List Token) :
    opens (first ++ second) = opens first + opens second := by
  simp [opens]

@[simp] theorem closes_append (first second : List Token) :
    closes (first ++ second) = closes first + closes second := by
  simp [closes]

@[simp] theorem nestedWithin_nil (limit : Nat) : NestedWithin limit [] := by
  intro before hBefore
  simp [List.prefix_nil.mp hBefore]

/-- A token that is no parenthesis leaves the number of open groups as it is. -/
theorem nestedWithin_cons {limit : Nat} {token : Token} {tokens : List Token}
    (hOpening : token.kind ≠ .leftParen) (hClosing : token.kind ≠ .rightParen) :
    NestedWithin limit (token :: tokens) ↔ NestedWithin limit tokens := by
  constructor
  · intro h before hBefore
    simpa [hOpening, hClosing] using h (token :: before) (List.cons_prefix_cons.mpr ⟨rfl, hBefore⟩)
  · intro h before hBefore
    rcases List.prefix_cons_iff.mp hBefore with rfl | ⟨behind, rfl, hBehind⟩
    · simp
    · simpa [hOpening, hClosing] using h behind hBehind

/-- Behind tokens that close what they open, as many groups are open as before them. -/
theorem nestedWithin_append {limit : Nat} {first second : List Token}
    (hClosed : opens first = closes first) :
    NestedWithin limit (first ++ second) ↔
      NestedWithin limit first ∧ NestedWithin limit second := by
  constructor
  · intro h
    refine ⟨fun before hBefore => h before (hBefore.trans (List.prefix_append _ _)), ?_⟩
    intro before hBefore
    have hWhole := h (first ++ before) ((List.prefix_append_right_inj first).mpr hBefore)
    simp only [opens_append, closes_append, hClosed] at hWhole
    omega
  · rintro ⟨hFirst, hSecond⟩ before ⟨after, hSplit⟩
    rcases List.append_eq_append_iff.mp hSplit with ⟨middle, rfl, _⟩ | ⟨middle, rfl, hRest⟩
    · exact hFirst before (List.prefix_append _ _)
    · have hMiddle := hSecond middle ⟨after, hRest.symm⟩
      simp only [opens_append, closes_append, hClosed]
      omega

/-- A group adds one to the groups that are open inside it. -/
theorem nestedWithin_group {limit : Nat} {opening closing : Token} {inner : List Token}
    (hOpening : opening.kind = .leftParen) (hClosing : closing.kind = .rightParen)
    (hClosed : opens inner = closes inner) :
    NestedWithin limit (opening :: (inner ++ [closing])) ↔
      0 < limit ∧ NestedWithin (limit - 1) inner := by
  constructor
  · intro h
    have hInside : ∀ before, before <+: inner → opens before + 1 ≤ closes before + limit := by
      intro before hBefore
      have hGroup := h (opening :: before)
        (List.cons_prefix_cons.mpr ⟨rfl, hBefore.trans (List.prefix_append _ _)⟩)
      simpa [hOpening] using hGroup
    have hPositive := hInside [] List.nil_prefix
    simp only [opens_nil, closes_nil] at hPositive
    refine ⟨by omega, fun before hBefore => ?_⟩
    have hBound := hInside before hBefore
    omega
  · rintro ⟨hPositive, hInner⟩ before hBefore
    rcases List.prefix_cons_iff.mp hBefore with rfl | ⟨behind, rfl, hBehind⟩
    · simp
    · rcases List.prefix_concat_iff.mp hBehind with rfl | hBehind
      · simp [hOpening, hClosing, hClosed]
      · have hBound := hInner behind hBehind
        simp [hOpening]
        omega

/-- The values of an expression's literals, from left to right. -/
def Expr.literals : Expr → List Number
  | .literal value => [value]
  | .binary _ left right => left.literals ++ right.literals

theorem Expr.literals_length_pos (e : Expr) : 0 < e.literals.length := by
  induction e with
  | literal value => exact Nat.one_pos
  | binary operator left right ihLeft ihRight =>
      simp only [literals, List.length_append]
      omega

namespace Tree

/-- A tree that is a parse tree of its own tokens, with every operator outside of its groups
binding at least as tightly as asked for. The left operand of an operator may have operators of the
same binding and the right operand may not, so that equal ones associate to the left; a group may
have any. -/
def Layered : Nat → Tree → Prop
  | _, .literal token value =>
      token.kind = .number ∧
        (Decimal.read? token.lexeme.toList).map Decimal.toNumber = some value
  | _, .group opening inner closing =>
      opening.kind = .leftParen ∧ inner.Layered 1 ∧ closing.kind = .rightParen
  | binding, .binary left operator sign right =>
      sign.kind.operator? = some operator ∧ binding ≤ operator.binding ∧
        left.Layered operator.binding ∧ right.Layered (operator.binding + 1)

/-- How deeply the groups of a tree are nested. -/
def nesting : Tree → Nat
  | .literal _ _ => 0
  | .group _ inner _ => inner.nesting + 1
  | .binary left _ _ right => max left.nesting right.nesting

theorem Layered.mono {tree : Tree} {binding looser : Nat} (h : tree.Layered binding)
    (hLe : looser ≤ binding) : tree.Layered looser := by
  cases tree with
  | literal token value => exact h
  | group opening inner closing => exact h
  | binary left operator sign right => exact ⟨h.1, hLe.trans h.2.1, h.2.2⟩

theorem Layered.binary {left right : Tree} {operator : Operator} {sign : Token} {binding : Nat}
    (hSign : sign.kind.operator? = some operator) (hBinding : operator.binding = binding)
    (hLeft : left.Layered binding) (hRight : right.Layered (binding + 1)) :
    (Tree.binary left operator sign right).Layered binding := by
  subst hBinding
  exact ⟨hSign, Nat.le_refl _, hLeft, hRight⟩

end Tree

namespace Token.Kind

/-- The operator signs that make a sum are `+` and `-`. -/
theorem exists_binding_one_iff {kind : Kind} :
    (∃ operator, kind.operator? = some operator ∧ operator.binding = 1) ↔
      kind = .plus ∨ kind = .minus := by
  cases kind <;> simp [operator?, Operator.binding]

/-- The operator signs that make a product are `*` and `/`. -/
theorem exists_binding_two_iff {kind : Kind} :
    (∃ operator, kind.operator? = some operator ∧ operator.binding = 2) ↔
      kind = .star ∨ kind = .slash := by
  cases kind <;> simp [operator?, Operator.binding]

theorem ne_of_operator? {kind : Kind} {operator : Operator}
    (h : kind.operator? = some operator) :
    kind ≠ .leftParen ∧ kind ≠ .rightParen ∧ kind ≠ .number := by
  cases kind <;> simp_all [operator?]

end Token.Kind

namespace Nonterminal

/-- The least binding of an operator that a layer has outside of groups. A factor has none. -/
def binding : Nonterminal → Nat
  | .expression => 1
  | .term => 2
  | .factor => 3

end Nonterminal

theorem Derives.of_factor {tokens : List Token} (h : Derives .factor tokens) :
    (layer : Nonterminal) → Derives layer tokens
  | .expression => .term (.factor h)
  | .term => .factor h
  | .factor => h

/-- A parse tree is a derivation of its tokens. -/
theorem Tree.Layered.derives {tree : Tree} (layer : Nonterminal)
    (h : tree.Layered layer.binding) : Derives layer tree.tokens := by
  induction tree generalizing layer with
  | literal token value => exact (Derives.number h.1).of_factor layer
  | group opening inner closing ih =>
      exact (Derives.group h.1 (ih .expression h.2.1) h.2.2).of_factor layer
  | binary left operator sign right ihLeft ihRight =>
      obtain ⟨hSign, hBinding, hLeft, hRight⟩ := h
      have hOne : 1 ≤ operator.binding ∧ operator.binding ≤ 2 := by
        cases operator <;> simp [Operator.binding]
      obtain hSum | hProduct : operator.binding = 1 ∨ operator.binding = 2 := by omega
      · rw [hSum] at hBinding hLeft hRight
        have hKind := Token.Kind.exists_binding_one_iff.mp ⟨operator, hSign, hSum⟩
        cases layer with
        | expression =>
            exact .sum (ihLeft .expression hLeft) hKind (ihRight .term hRight)
        | term | factor => simp [Nonterminal.binding] at hBinding
      · rw [hProduct] at hBinding hLeft hRight
        have hKind := Token.Kind.exists_binding_two_iff.mp ⟨operator, hSign, hProduct⟩
        have hTerm : Derives .term (left.tokens ++ sign :: right.tokens) :=
          .product (ihLeft .term hLeft) hKind (ihRight .factor hRight)
        cases layer with
        | expression => exact .term hTerm
        | term => exact hTerm
        | factor => simp [Nonterminal.binding] at hBinding

/-- Words that the grammar derives are the tokens of a parse tree. -/
theorem Derives.exists_tree {layer : Nonterminal} {tokens : List Token} (h : Derives layer tokens)
    (hWords : ∀ token ∈ tokens, token.IsWord) :
    ∃ tree : Tree, tree.Layered layer.binding ∧ tree.tokens = tokens := by
  induction h with
  | term _ ih | factor _ ih =>
      obtain ⟨tree, hLayered, hTokens⟩ := ih hWords
      exact ⟨tree, hLayered.mono (by decide), hTokens⟩
  | @sum leftTokens rightTokens sign _ hSign _ ihLeft ihRight =>
      obtain ⟨operator, hOperator, hBinding⟩ := Token.Kind.exists_binding_one_iff.mpr hSign
      obtain ⟨left, hLeft, rfl⟩ := ihLeft fun token hToken => hWords token (by simp [hToken])
      obtain ⟨right, hRight, rfl⟩ := ihRight fun token hToken => hWords token (by simp [hToken])
      exact ⟨.binary left operator sign right, .binary hOperator hBinding hLeft hRight, rfl⟩
  | @product leftTokens rightTokens sign _ hSign _ ihLeft ihRight =>
      obtain ⟨operator, hOperator, hBinding⟩ := Token.Kind.exists_binding_two_iff.mpr hSign
      obtain ⟨left, hLeft, rfl⟩ := ihLeft fun token hToken => hWords token (by simp [hToken])
      obtain ⟨right, hRight, rfl⟩ := ihRight fun token hToken => hWords token (by simp [hToken])
      exact ⟨.binary left operator sign right, .binary hOperator hBinding hLeft hRight, rfl⟩
  | @number token hKind =>
      obtain ⟨decimal, hDecimal⟩ := (hWords token (by simp)).readable hKind
      exact ⟨.literal token decimal.toNumber, ⟨hKind, by rw [hDecimal]; rfl⟩, rfl⟩
  | @group opening closing inner hOpening _ hClosing ih =>
      obtain ⟨tree, hLayered, rfl⟩ := ih fun token hToken => hWords token (by simp [hToken])
      exact ⟨.group opening tree closing, ⟨hOpening, hLayered, hClosing⟩, rfl⟩

namespace Tree.Layered

/-- The literals of a parse tree are the numbers among its tokens, in their order. -/
theorem literals_eq {tree : Tree} {binding : Nat} (h : tree.Layered binding) :
    (tree.tokens.filter (·.kind = .number)).map
        (fun token => (Decimal.read? token.lexeme.toList).map Decimal.toNumber) =
      tree.toExpr.literals.map some := by
  induction tree generalizing binding with
  | literal token value => simp [tokens, toExpr, Expr.literals, h.1, h.2]
  | group opening inner closing ih =>
      simpa [tokens, toExpr, h.1, h.2.2] using ih h.2.1
  | binary left operator sign right ihLeft ihRight =>
      obtain ⟨hSign, _, hLeft, hRight⟩ := h
      have hKind := (Token.Kind.ne_of_operator? hSign).2.2
      simpa [tokens, toExpr, Expr.literals, hKind] using
        congrArg₂ (· ++ ·) (ihLeft hLeft) (ihRight hRight)

theorem countP_number {tree : Tree} {binding : Nat} (h : tree.Layered binding) :
    tree.tokens.countP (·.kind = .number) = tree.toExpr.literals.length := by
  rw [List.countP_eq_length_filter]
  simpa using congrArg List.length h.literals_eq

/-- A parse tree closes every group that it opens. -/
theorem opens_eq_closes {tree : Tree} {binding : Nat} (h : tree.Layered binding) :
    opens tree.tokens = closes tree.tokens := by
  induction tree generalizing binding with
  | literal token value => simp [tokens, h.1]
  | group opening inner closing ih =>
      simp [tokens, h.1, h.2.2, ih h.2.1]
  | binary left operator sign right ihLeft ihRight =>
      obtain ⟨hSign, _, hLeft, hRight⟩ := h
      obtain ⟨hOpening, hClosing, _⟩ := Token.Kind.ne_of_operator? hSign
      simp [tokens, hOpening, hClosing, ihLeft hLeft, ihRight hRight]

/-- The groups that are open at once in the tokens of a parse tree are those that are nested in
each other. -/
theorem nestedWithin_iff {tree : Tree} {binding limit : Nat} (h : tree.Layered binding) :
    NestedWithin limit tree.tokens ↔ tree.nesting ≤ limit := by
  induction tree generalizing binding limit with
  | literal token value =>
      have hKind : token.kind ≠ .leftParen := by simp [h.1]
      simp [tokens, nesting, nestedWithin_cons hKind (by simp [h.1])]
  | group opening inner closing ih =>
      rw [tokens, nestedWithin_group h.1 h.2.2 h.2.1.opens_eq_closes, ih h.2.1, nesting]
      omega
  | binary left operator sign right ihLeft ihRight =>
      obtain ⟨hSign, _, hLeft, hRight⟩ := h
      obtain ⟨hOpening, hClosing, _⟩ := Token.Kind.ne_of_operator? hSign
      rw [tokens, nestedWithin_append hLeft.opens_eq_closes, nestedWithin_cons hOpening hClosing,
        ihLeft hLeft, ihRight hRight, nesting, Nat.max_le]

end Tree.Layered

end StackCalculator
