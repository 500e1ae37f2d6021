import LineScript.Expr.Eval
import LineScript.Proofs.Reading.Expressions

/-!
# Exact arithmetic

Numbers are computed exactly or an overflow is reported. An expression overflows just if
some operator of it meets two integers and has a result outside the 64-bit range. Its value
is a float if a float stands among its operands or a division among its operators, and
otherwise the integer that the expression has without any limit (`NumExpr.eval_exact`).
-/

namespace LineScript

/-! ## Exact results -/

/-- The result of an operator on integers of any size. A quotient is no integer. -/
def Operator.applyInt? (op : Operator) (m n : Int) : Option Int :=
  match op with
  | .add => some (m + n)
  | .sub => some (m - n)
  | .mul => some (m * n)
  | .div => none

def Number.toInt? : Number → Option Int
  | .integer n => some n.toInt
  | .float _ => none

def Value.toInt? : Value → Option Int
  | .number n => n.toInt?
  | .string _ => none

mutual

/-- The integer that the expression has if no size limits the results, unless a float or a
division comes into it. -/
def NumExpr.toInt? (arena : Arena) : NumExpr → Option Int
  | .single term => term.toInt? arena
  | .chain term op rest => do op.applyInt? (← term.toInt? arena) (← rest.toInt? arena)

def Term.toInt? (arena : Arena) : Term → Option Int
  | .single factor => factor.toInt? arena
  | .chain factor op rest => do op.applyInt? (← factor.toInt? arena) (← rest.toInt? arena)

def Factor.toInt? (arena : Arena) : Factor → Option Int
  | .literal n => n.toInt?
  | .paren inner => inner.toInt? arena
  | .negate inner => do return -(← inner.toInt? arena)
  | .reference ref => do (← (arena.symbol ref.symbol).toOption).value.toInt?

end

/-! ## Nodes -/

/-- A place in the tree of an expression where a value comes from: a literal or a variable,
or an operator with its operands. -/
inductive Node where
  | leaf (factor : Factor)
  | negation (inner : Factor)
  | sum (term : Term) (op : Operator) (rest : NumExpr)
  | product (factor : Factor) (op : Operator) (rest : Term)

mutual

def NumExpr.nodes : NumExpr → List Node
  | .single term => term.nodes
  | .chain term op rest => .sum term op rest :: (term.nodes ++ rest.nodes)

def Term.nodes : Term → List Node
  | .single factor => factor.nodes
  | .chain factor op rest => .product factor op rest :: (factor.nodes ++ rest.nodes)

def Factor.nodes : Factor → List Node
  | .literal n => [.leaf (.literal n)]
  | .paren inner => inner.nodes
  | .negate inner => .negation inner :: inner.nodes
  | .reference ref => [.leaf (.reference ref)]

end

/-- The integer does not fit into 64 bits: it is less than minus the 63rd power of two, or
not less than that power. -/
def OutOfRange (n : Int) : Prop :=
  ¬ (-9223372036854775808 ≤ n ∧ n ≤ 9223372036854775807)

/-- The operands are integers, and the exact result of the operator does not fit. -/
def Operator.Overflows (op : Operator) (left right : Except Halt Number) : Prop :=
  ∃ m n v, left = .ok (.integer m) ∧ right = .ok (.integer n) ∧
    op.applyInt? m.toInt n.toInt = some v ∧ OutOfRange v

namespace Node

/-- The operands of the node have integer values, and the exact result does not fit. -/
def Overflows (scene : Scene) : Node → Prop
  | .leaf _ => False
  | .negation inner => ∃ n, inner.eval scene = .ok (.integer n) ∧ OutOfRange (-n.toInt)
  | .sum term op rest => op.Overflows (term.eval scene) (rest.eval scene)
  | .product factor op rest => op.Overflows (factor.eval scene) (rest.eval scene)

/-- The node is a float or a division, so that what is computed with it is rounded. -/
def Rounds (scene : Scene) : Node → Prop
  | .leaf factor => ∃ x, factor.eval scene = .ok (.float x)
  | .negation _ => False
  | .sum _ op _ => op = .div
  | .product _ op _ => op = .div

end Node

/-! ## One operator -/

theorem Number.ofInt?_cases (v : Int) :
    OutOfRange v ∧ ofInt? v = none ∨
      ¬ OutOfRange v ∧ ∃ n : Int64, ofInt? v = some (.integer n) ∧ n.toInt = v := by
  have hrange : (ofInt? v).isSome ↔ ¬ OutOfRange v := by
    rw [ofInt?_isSome_iff, OutOfRange, Grammar.largest]
    omega
  cases h : ofInt? v with
  | none =>
    rw [h] at hrange
    exact .inl ⟨by simpa using hrange, rfl⟩
  | some n =>
    rw [h] at hrange
    obtain ⟨m, rfl, hm⟩ := ofInt?_eq_some h
    exact .inr ⟨hrange.mp rfl, m, rfl, hm⟩

namespace Scene

variable {scene : Scene} {op : Operator}

theorem apply_integers {m n : Int64} {v : Int} (h : op.applyInt? m.toInt n.toInt = some v) :
    scene.apply (.integer m) op (.integer n) = scene.inRange (Number.ofInt? v) := by
  cases op with
  | div => cases h
  | _ =>
    cases h
    rfl

/-- A division gives a float, and so does every operator on a float. -/
theorem apply_rounds {a b : Number} (h : op = .div ∨ a.toInt? = none ∨ b.toInt? = none) :
    ∃ x, scene.apply a op b = .ok (.float x) := by
  cases op with
  | div => exact ⟨_, rfl⟩
  | _ =>
    cases a with
    | float x => exact ⟨_, rfl⟩
    | integer m =>
      cases b with
      | float y => exact ⟨_, rfl⟩
      | integer n => simp [Number.toInt?] at h

end Scene

/-! ## Outcomes -/

/-- What an expression with these nodes comes to, if it has this exact value. -/
inductive Outcome (scene : Scene) (nodes : List Node) (exact : Option Int) :
    Except Halt Number → Prop where
  | overflow (hoverflow : ∃ node ∈ nodes, node.Overflows scene) :
      Outcome scene nodes exact (.error scene.overflow)
  | integer {n : Int64} (hfits : ∀ node ∈ nodes, ¬ node.Overflows scene)
      (hwhole : ∀ node ∈ nodes, ¬ node.Rounds scene) (hexact : exact = some n.toInt) :
      Outcome scene nodes exact (.ok (.integer n))
  | float {x : Float} (hfits : ∀ node ∈ nodes, ¬ node.Overflows scene)
      (hrounds : ∃ node ∈ nodes, node.Rounds scene) :
      Outcome scene nodes exact (.ok (.float x))

namespace Outcome

variable {scene : Scene} {nodes later : List Node} {exact exact' : Option Int}
variable {left right : Except Halt Number} {op : Operator} {node : Node}

theorem settled (h : Outcome scene nodes exact left) :
    (∃ node ∈ nodes, node.Overflows scene) ∧ left = .error scene.overflow ∨
      (∀ node ∈ nodes, ¬ node.Overflows scene) ∧ ∃ n, left = .ok n := by
  cases h with
  | overflow hoverflow => exact .inl ⟨hoverflow, rfl⟩
  | integer hfits => exact .inr ⟨hfits, _, rfl⟩
  | float hfits => exact .inr ⟨hfits, _, rfl⟩

theorem eq_overflow_iff (h : Outcome scene nodes exact left) :
    left = .error scene.overflow ↔ ∃ node ∈ nodes, node.Overflows scene := by
  obtain ⟨hoverflow, rfl⟩ | ⟨hfits, n, rfl⟩ := h.settled
  · exact ⟨fun _ => hoverflow, fun _ => rfl⟩
  · constructor
    · intro hresult
      cases hresult
    · rintro ⟨node, hnode, hoverflow⟩
      exact absurd hoverflow (hfits node hnode)

theorem exists_value (h : Outcome scene nodes exact left)
    (hfits : ¬ ∃ node ∈ nodes, node.Overflows scene) :
    ∃ n, left = .ok n ∧
      ((∃ i, n = .integer i) ↔ ¬ ∃ node ∈ nodes, node.Rounds scene) ∧
      (∀ i, n = .integer i → exact = some i.toInt) ∧
      ((∃ node ∈ nodes, node.Rounds scene) → ∃ x, n = .float x) := by
  cases h with
  | overflow hoverflow => exact absurd hoverflow hfits
  | @integer i _ hwhole hexact =>
    have hnever : ¬ ∃ node ∈ nodes, node.Rounds scene := by
      rintro ⟨node, hnode, hrounds⟩
      exact hwhole node hnode hrounds
    refine ⟨_, rfl, ⟨fun _ => hnever, fun _ => ⟨i, rfl⟩⟩, ?_, fun hrounds => absurd hrounds hnever⟩
    intro j hj
    cases hj
    exact hexact
  | @float x _ hrounds =>
    refine ⟨_, rfl, ⟨?_, fun hnever => absurd hrounds hnever⟩, ?_, fun _ => ⟨x, rfl⟩⟩
    · rintro ⟨i, hi⟩
      cases hi
    · intro i hi
      cases hi

/-- Two operands whose result is rounded. -/
theorem rounded {a b : Number} (hfits : ∀ inner ∈ node :: (nodes ++ later), ¬ inner.Overflows scene)
    (hrounds : ∃ inner ∈ node :: (nodes ++ later), inner.Rounds scene)
    (happly : op = .div ∨ a.toInt? = none ∨ b.toInt? = none) :
    Outcome scene (node :: (nodes ++ later)) exact (scene.apply a op b) := by
  obtain ⟨x, hx⟩ := scene.apply_rounds happly
  rw [hx]
  exact .float hfits hrounds

/-- Two integers are combined exactly, if the result fits. -/
theorem integers {m n : Int64}
    (hfits : ∀ inner ∈ nodes ++ later, ¬ inner.Overflows scene)
    (hwhole : ∀ inner ∈ nodes ++ later, ¬ inner.Rounds scene)
    (hoverflows : node.Overflows scene ↔ op.Overflows (.ok (.integer m)) (.ok (.integer n)))
    (hrounds : node.Rounds scene ↔ op = .div) :
    Outcome scene (node :: (nodes ++ later)) (op.applyInt? m.toInt n.toInt)
      (scene.apply (.integer m) op (.integer n)) := by
  have exceeds {v : Int} (hv : op.applyInt? m.toInt n.toInt = some v) :
      node.Overflows scene ↔ OutOfRange v := by
    rw [hoverflows]
    constructor
    · rintro ⟨m', n', v', hm, hn, hv', hrange⟩
      cases hm
      cases hn
      rw [hv] at hv'
      cases hv'
      exact hrange
    · intro hrange
      exact ⟨m, n, v, rfl, rfl, hv, hrange⟩
  by_cases hdiv : op = .div
  · refine rounded (List.forall_mem_cons.mpr ⟨?_, hfits⟩) ?_ (.inl hdiv)
    · rw [hoverflows, hdiv]
      rintro ⟨m', n', v', -, -, hv, -⟩
      cases hv
    · exact ⟨node, List.mem_cons_self, hrounds.mpr hdiv⟩
  · obtain ⟨v, hv⟩ : ∃ v, op.applyInt? m.toInt n.toInt = some v := by
      cases op with
      | div => exact absurd rfl hdiv
      | _ => exact ⟨_, rfl⟩
    rw [Scene.apply_integers hv, hv]
    obtain ⟨hrange, hnone⟩ | ⟨hrange, i, hsome, hi⟩ := Number.ofInt?_cases v
    · rw [hnone]
      exact .overflow ⟨node, List.mem_cons_self, (exceeds hv).mpr hrange⟩
    · rw [hsome]
      have hnode : ¬ node.Overflows scene := fun h => hrange ((exceeds hv).mp h)
      have hexact : ¬ node.Rounds scene := fun h => hdiv (hrounds.mp h)
      exact .integer (List.forall_mem_cons.mpr ⟨hnode, hfits⟩)
        (List.forall_mem_cons.mpr ⟨hexact, hwhole⟩) (by rw [hi])

/-- An operator overflows with its operands. If they have values, it computes exactly with
integers and rounds with a float. -/
theorem binary (hleft : Outcome scene nodes exact left) (hright : Outcome scene later exact' right)
    (hoverflows : node.Overflows scene ↔ op.Overflows left right)
    (hrounds : node.Rounds scene ↔ op = .div) :
    Outcome scene (node :: (nodes ++ later)) (do op.applyInt? (← exact) (← exact'))
      (left >>= fun a => right >>= fun b => scene.apply a op b) := by
  cases hleft with
  | overflow h =>
    obtain ⟨inner, hinner, h⟩ := h
    exact .overflow ⟨inner, List.mem_cons_of_mem _ (List.mem_append_left _ hinner), h⟩
  | @integer m hfits hwhole hexact =>
    cases hright with
    | overflow h =>
      obtain ⟨inner, hinner, h⟩ := h
      exact .overflow ⟨inner, List.mem_cons_of_mem _ (List.mem_append_right _ hinner), h⟩
    | @integer n hfits' hwhole' hexact' =>
      subst hexact hexact'
      exact integers (List.forall_mem_append.mpr ⟨hfits, hfits'⟩)
        (List.forall_mem_append.mpr ⟨hwhole, hwhole'⟩) hoverflows hrounds
    | @float y hfits' h =>
      obtain ⟨inner, hinner, h⟩ := h
      refine rounded ?_ ⟨inner, List.mem_cons_of_mem _ (List.mem_append_right _ hinner), h⟩
        (.inr (.inr rfl))
      refine List.forall_mem_cons.mpr ⟨?_, List.forall_mem_append.mpr ⟨hfits, hfits'⟩⟩
      rw [hoverflows]
      rintro ⟨m', n', v', -, hn, -⟩
      cases hn
  | @float x hfits h =>
    obtain ⟨inner, hinner, h⟩ := h
    have hnode : ¬ node.Overflows scene := by
      rw [hoverflows]
      rintro ⟨m', n', v', hm, -⟩
      cases hm
    obtain ⟨⟨inner, hinner, h⟩, rfl⟩ | ⟨hfits', b, rfl⟩ := hright.settled
    · exact .overflow ⟨inner, List.mem_cons_of_mem _ (List.mem_append_right _ hinner), h⟩
    · refine rounded ?_ ⟨inner, List.mem_cons_of_mem _ (List.mem_append_left _ hinner), h⟩
        (.inr (.inl rfl))
      exact List.forall_mem_cons.mpr ⟨hnode, List.forall_mem_append.mpr ⟨hfits, hfits'⟩⟩

end Outcome

/-! ## Expressions -/

/-- The variable can be seen from the block and holds a number. -/
def Reference.HoldsNumber (scene : Scene) (ref : Reference) : Prop :=
  scene.arena.isVisible scene.table ref.symbol = .ok true ∧
    ∃ s n, scene.arena.symbol ref.symbol = .ok s ∧ s.value = .number n

section outcome

variable {scene : Scene}

theorem Reference.readNumber_of_holds {ref : Reference} (h : ref.HoldsNumber scene) :
    ∃ n, ref.readNumber scene = .ok n ∧
      (Factor.reference ref).toInt? scene.arena = n.toInt? := by
  obtain ⟨hvisible, s, n, hs, hn⟩ := h
  refine ⟨n, ?_, ?_⟩
  · simp [readNumber, read, hvisible, hs, hn, Scene.checked, bind, Except.bind, pure, Except.pure]
  · simp [Factor.toInt?, hs, hn, Except.toOption, Value.toInt?]

/-- A literal or a variable has its value. -/
theorem Outcome.leaf {factor : Factor} {n : Number} (h : factor.eval scene = .ok n) :
    Outcome scene [.leaf factor] n.toInt? (factor.eval scene) := by
  have hfits : ∀ node ∈ [Node.leaf factor], ¬ node.Overflows scene := by simp [Node.Overflows]
  rw [h]
  cases n with
  | integer i =>
    refine .integer hfits ?_ rfl
    simp [Node.Rounds, h]
  | float x => exact .float hfits ⟨_, List.mem_cons_self, x, h⟩

/-- A negation is a product with minus one. -/
theorem Outcome.negation {inner : Factor} {nodes : List Node} {exact : Option Int}
    (h : Outcome scene nodes exact (inner.eval scene)) :
    Outcome scene (.negation inner :: nodes) (do return -(← exact))
      ((Factor.negate inner).eval scene) := by
  have hone : (-1 : Int64).toInt = -1 := by decide
  have hminus : Outcome scene [] (some (-1)) (.ok (.integer (-1))) := by
    refine .integer ?_ ?_ rfl <;> simp
  have hoverflows : (Node.negation inner).Overflows scene ↔
      Operator.mul.Overflows (inner.eval scene) (.ok (.integer (-1))) := by
    constructor
    · rintro ⟨n, hn, hrange⟩
      refine ⟨n, -1, _, hn, rfl, rfl, ?_⟩
      rwa [hone, Int.mul_neg_one]
    · rintro ⟨m, n, v, hm, hn, hv, hrange⟩
      cases hn
      cases hv
      rw [hone, Int.mul_neg_one] at hrange
      exact ⟨m, hm, hrange⟩
  have hproduct := h.binary hminus hoverflows (by simp [Node.Rounds])
  have hexact : (do Operator.mul.applyInt? (← exact) (← some (-1))) = (do return -(← exact)) := by
    cases exact with
    | none => rfl
    | some v => exact congrArg some (Int.mul_neg_one v)
  rw [List.append_nil, hexact] at hproduct
  exact hproduct

mutual

theorem NumExpr.outcome : ∀ e : NumExpr, (∀ ref ∈ e.references, ref.HoldsNumber scene) →
    Outcome scene e.nodes (e.toInt? scene.arena) (e.eval scene)
  | .single term, h => Term.outcome term h
  | .chain term _ rest, h =>
    (Term.outcome term fun ref href => h ref (List.mem_append_left _ href)).binary
      (NumExpr.outcome rest fun ref href => h ref (List.mem_append_right _ href)) Iff.rfl Iff.rfl

theorem Term.outcome : ∀ e : Term, (∀ ref ∈ e.references, ref.HoldsNumber scene) →
    Outcome scene e.nodes (e.toInt? scene.arena) (e.eval scene)
  | .single factor, h => Factor.outcome factor h
  | .chain factor _ rest, h =>
    (Factor.outcome factor fun ref href => h ref (List.mem_append_left _ href)).binary
      (Term.outcome rest fun ref href => h ref (List.mem_append_right _ href)) Iff.rfl Iff.rfl

theorem Factor.outcome : ∀ e : Factor, (∀ ref ∈ e.references, ref.HoldsNumber scene) →
    Outcome scene e.nodes (e.toInt? scene.arena) (e.eval scene)
  | .literal n, _ => .leaf rfl
  | .paren inner, h => NumExpr.outcome inner h
  | .negate inner, h => (Factor.outcome inner h).negation
  | .reference ref, h => by
    obtain ⟨n, hread, hexact⟩ := Reference.readNumber_of_holds (h ref (List.mem_singleton_self ref))
    rw [hexact]
    exact .leaf hread

end

end outcome

/-- An expression over variables that hold numbers is computed exactly, is rounded because of a
float or a division in it, or overflows. -/
theorem NumExpr.eval_exact {scene : Scene} {e : NumExpr}
    (h : ∀ ref ∈ e.references, ref.HoldsNumber scene) :
    (e.eval scene = .error scene.overflow ↔ ∃ node ∈ e.nodes, node.Overflows scene) ∧
      ((¬ ∃ node ∈ e.nodes, node.Overflows scene) → ∃ n, e.eval scene = .ok n ∧
        ((∃ i, n = .integer i) ↔ ¬ ∃ node ∈ e.nodes, node.Rounds scene) ∧
        (∀ i, n = .integer i → e.toInt? scene.arena = some i.toInt) ∧
        ((∃ node ∈ e.nodes, node.Rounds scene) → ∃ x, n = .float x)) := by
  have houtcome := NumExpr.outcome e h
  exact ⟨houtcome.eq_overflow_iff, houtcome.exists_value⟩

/-- The smallest integer has no negation, whatever float the rest of the sum is. -/
theorem NumExpr.eval_exact_smallest :
    let x : Reference := ⟨"x", ⟨0⟩, ⟨1, 17⟩⟩
    let scene : Scene :=
      { arena :=
          { tables := #[⟨[("x", ⟨0⟩)], none⟩]
            symbols := #[⟨"x", .number, .number (.integer Int64.minValue)⟩] }
        table := ⟨0⟩
        position := ⟨1, 1⟩ }
    let half : Term := .chain (.literal (.integer 1)) .div (.single (.literal (.integer 2)))
    let e : NumExpr := .chain half .add (.single (.single (.negate (.reference x))))
    (∀ ref ∈ e.references, ref.HoldsNumber scene) ∧ e.eval scene = .error scene.overflow := by
  intro x scene half e
  have hholds : ∀ ref ∈ e.references, ref.HoldsNumber scene := by
    intro ref href
    rw [List.mem_singleton.mp href]
    exact ⟨rfl, _, _, rfl, rfl⟩
  have hnode : Node.negation (.reference x) ∈ e.nodes := by
    simp [e, half, NumExpr.nodes, Term.nodes, Factor.nodes]
  have hvalue : (Factor.reference x).eval scene = .ok (.integer Int64.minValue) := rfl
  have hrange : OutOfRange (-Int64.minValue.toInt) := by
    rw [OutOfRange]
    decide
  exact ⟨hholds, (NumExpr.eval_exact hholds).1.mpr ⟨_, hnode, Int64.minValue, hvalue, hrange⟩⟩

end LineScript
