import LineScript.Proofs.Reading.Expressions
import LineScript.Proofs.Reading.Rules

/-!
# Statements that hold no statements

`LeafReads` lists the ways in which a declaration, an assignment or an output
statement is read, and `Statement.read_leaf_iff` says that there are no others. A
statement that is not read may still declare its variable; all that it can do to
the arena is said by `Statement.read_arena_of_startsLeaf`.
-/

namespace LineScript

/-- The statement that `first` begins is read from the tokens of the fourth
argument. It leaves tokens and an arena. -/
inductive LeafReads (site : Site) (a : Arena) (first : Token) :
    List Token → Statement → List Token → Arena → Prop where
  | declare {name type : Token} {kind : Kind} {rest left : List Token}
      (hfirst : first.kind = .keyword .var) (hname : name.kind = .identifier)
      (htype : type.kind = Grammar.typeWord kind)
      (hfree : a.getLocal site.table name.literal = .ok none) (ends : Ends rest left) :
      LeafReads site a first (name :: type :: rest)
        (.declare first.position name.literal (a.declare site.table (.declared name.literal kind)).1
          kind none)
        left (a.declare site.table (.declared name.literal kind)).2
  | declareValue {name type equals : Token} {kind : Kind} {rest left : List Token} {e : Expr}
      (hfirst : first.kind = .keyword .var) (hname : name.kind = .identifier)
      (htype : type.kind = Grammar.typeWord kind)
      (hfree : a.getLocal site.table name.literal = .ok none) (hequals : equals.kind = .equals)
      (hread : (Expr.read (site.context a) kind rest).outcome = .ok e)
      (ends : Ends (Expr.read (site.context a) kind rest).rest left) :
      LeafReads site a first (name :: type :: equals :: rest)
        (.declare first.position name.literal (a.declare site.table (.declared name.literal kind)).1
          kind (some e))
        left (a.declare site.table (.declared name.literal kind)).2
  | assign {op : Token} {compound : Bool} {binding : Arena.Binding} {rest left : List Token}
      {e : Expr} (hfirst : first.kind = .identifier)
      (htarget : a.resolve? site.table first.literal = some binding)
      (hop : Statement.compound? op.kind = some compound)
      (hread : (Expr.read (site.context a) binding.kind rest).outcome = .ok e)
      (ends : Ends (Expr.read (site.context a) binding.kind rest).rest left) :
      LeafReads site a first (op :: rest)
        (.assign first.position first.literal binding.symbol compound e) left a
  | print {newline : Bool} {tokens left : List Token}
      (hfirst : first.kind = .keyword (if newline then .println else .print))
      (ends : Ends tokens left) :
      LeafReads site a first tokens (.print first.position newline none) left a
  | printValue {newline : Bool} {kind : Kind} {tokens left : List Token} {e : Expr}
      (hfirst : first.kind = .keyword (if newline then .println else .print))
      (hread : (Expr.read (site.context a) kind tokens).outcome = .ok e)
      (ends : Ends (Expr.read (site.context a) kind tokens).rest left) :
      LeafReads site a first tokens (.print first.position newline (some e)) left a

namespace Statement

theorem typeWord?_eq_some_iff {word : TokenKind} {kind : Kind} :
    typeWord? word = some kind ↔ word = Grammar.typeWord kind := by
  constructor
  · intro h
    unfold typeWord? at h
    split at h <;> cases h <;> rfl
  · rintro rfl
    cases kind <;> rfl

section declare

variable {site : Site} {a : Arena} {position : Position} {tokens rest left : List Token}
variable {t : Table} {name type : Token} {kind : Kind}

/-- Behind a new name and a type word stands the first value. -/
theorem readDeclare_eq (hname : name.kind = .identifier)
    (htype : type.kind = Grammar.typeWord kind)
    (hfree : a.getLocal site.table name.literal = .ok none) :
    readDeclare site a position (name :: type :: rest) =
      .plain (a.declare site.table (.declared name.literal kind)).2
        (((readInitial (site.context a) kind rest).map
          (.declare position name.literal
            (a.declare site.table (.declared name.literal kind)).1 kind)).within
          ((List.suffix_cons type rest).trans (List.suffix_cons name (type :: rest)))) := by
  simp only [readDeclare, Context.front, List.tail_cons, hname, if_true,
    typeWord?_eq_some_iff.mpr htype, hfree]

/-- A declaration that does not come to a new name and its type word declares nothing. -/
theorem readDeclare_free_or_error (site : Site) (a : Arena) (position : Position)
    (tokens : List Token) :
    (∃ name type rest kind, tokens = name :: type :: rest ∧ name.kind = .identifier ∧
      typeWord? type.kind = some kind ∧
      ∀ id, a.getLocal site.table name.literal ≠ .ok (some id)) ∨
    ∃ e, (readDeclare site a position tokens).outcome = .error e ∧
      (readDeclare site a position tokens).arena = a := by
  unfold readDeclare
  simp only
  split
  case isFalse => exact .inr ⟨_, rfl, rfl⟩
  case isTrue hname =>
    split
    case h_1 => exact .inr ⟨_, rfl, rfl⟩
    case h_2 kind htype =>
      split
      case h_1 => exact .inr ⟨_, rfl, rfl⟩
      case h_2 hbound =>
        left
        match tokens with
        | [] => cases hname
        | [name] => cases htype
        | name :: type :: rest => exact ⟨name, type, rest, kind, rfl, hname, htype, hbound⟩

theorem readDeclare_cases (site : Site) (a : Arena) (position : Position) (tokens : List Token)
    (ht : a.table site.table = .ok t) :
    (∃ name type rest kind, tokens = name :: type :: rest ∧ name.kind = .identifier ∧
      type.kind = Grammar.typeWord kind ∧ a.getLocal site.table name.literal = .ok none) ∨
    ∃ e, (readDeclare site a position tokens).outcome = .error e ∧
      (readDeclare site a position tokens).arena = a := by
  obtain ⟨name, type, rest, kind, rfl, hname, htype, hfree⟩ | hfails :=
    readDeclare_free_or_error site a position tokens
  · refine .inl ⟨name, type, rest, kind, rfl, hname, typeWord?_eq_some_iff.mp htype, ?_⟩
    rw [Arena.getLocal_eq_ok ht]
    cases hf : t.find? name.literal with
    | none => rfl
    | some id => exact absurd ((Arena.getLocal_eq_ok ht).mpr hf) (hfree id)
  · exact .inr hfails

end declare

section leaf

variable {site : Site} {a b : Arena} {first : Token} {tokens left : List Token} {t : Table}
variable {statement : Statement}

/-- The reading of a statement that is no block, before its end is looked at. -/
def readUnfinished (site : Site) (a : Arena) (first : Token) (tokens : List Token) :
    StatementReading tokens :=
  match first.kind with
  | .keyword .var => readDeclare site a first.position tokens
  | .identifier => .plain a (readAssign (site.context a) first tokens)
  | .keyword .print => .plain a (readPrint (site.context a) first.position false tokens)
  | .keyword .println => .plain a (readPrint (site.context a) first.position true tokens)
  | _ => .plain a (.stay tokens (.error (.unexpected first)))

theorem read_eq_readUnfinished (h : first.StartsLeaf) :
    Statement.read site a first tokens =
      ((readUnfinished site a first tokens).finish).announce first := by
  obtain ⟨-, -, -, hbrace, -⟩ := h
  unfold Statement.read readUnfinished
  split
  case h_1 h => simp only [h]
  case h_2 h => simp only [h]
  case h_3 h => simp only [h]
  case h_4 h => simp only [h]
  case h_5 h => exact absurd h hbrace
  case h_6 =>
    split
    case h_5 => rfl
    all_goals contradiction

/-- What is read as a first value: nothing, or an expression behind an equals sign. -/
theorem readInitial_eq_ok {ctx : Context} {kind : Kind} {initial : Option Expr}
    (h : (readInitial ctx kind tokens).outcome = .ok initial) :
    (initial = none ∧ (readInitial ctx kind tokens).rest = tokens) ∨
      ∃ equals rest e, tokens = equals :: rest ∧ equals.kind = .equals ∧ initial = some e ∧
        (Expr.read ctx kind rest).outcome = .ok e ∧
        (readInitial ctx kind tokens).rest = (Expr.read ctx kind rest).rest := by
  cases tokens with
  | nil =>
    cases h
    exact .inl ⟨rfl, rfl⟩
  | cons equals rest =>
    by_cases hequals : equals.kind = .equals
    · right
      simp only [readInitial, if_pos hequals] at h ⊢
      cases hout : (Expr.read ctx kind rest).outcome with
      | error e =>
        simp [Reading.behind, Reading.within, Reading.map, hout, Except.map] at h
      | ok e =>
        simp only [Reading.behind, Reading.within, Reading.map, hout, Except.map] at h
        cases h
        exact ⟨equals, rest, e, rfl, hequals, rfl, hout, rfl⟩
    · left
      simp only [readInitial, if_neg hequals] at h ⊢
      cases h
      exact ⟨rfl, rfl⟩

theorem leafReads_of_declare (hfirst : first.kind = .keyword .var)
    (ht : a.table site.table = .ok t)
    (hout : (readDeclare site a first.position tokens).outcome = .ok statement)
    (ends : Ends (readDeclare site a first.position tokens).rest left) :
    LeafReads site a first tokens statement left
      (readDeclare site a first.position tokens).arena := by
  obtain ⟨name, type, rest, kind, rfl, hname, htype, hfree⟩ | ⟨e, he, -⟩ :=
    readDeclare_cases site a first.position tokens ht
  · rw [readDeclare_eq hname htype hfree] at hout ends ⊢
    simp only [StatementReading.plain, Reading.within, Reading.map] at hout ends
    cases hinit : (readInitial (site.context a) kind rest).outcome with
    | error e => simp [hinit, Except.map] at hout
    | ok initial =>
      simp only [hinit, Except.map] at hout
      cases hout
      obtain ⟨rfl, hrest⟩ | ⟨equals, later, e, rfl, hequals, rfl, hread, hrest⟩ :=
        readInitial_eq_ok hinit
      · exact .declare hfirst hname htype hfree (hrest ▸ ends)
      · exact .declareValue hfirst hname htype hfree hequals hread (hrest ▸ ends)
  · rw [he] at hout
    cases hout

theorem leafReads_of_assign (hfirst : first.kind = .identifier)
    (hout : (readAssign (site.context a) first tokens).outcome = .ok statement)
    (ends : Ends (readAssign (site.context a) first tokens).rest left) :
    LeafReads site a first tokens statement left a := by
  unfold readAssign at hout ends
  split at hout
  case h_1 => cases hout
  case h_2 binding htarget =>
    split at hout
    case h_1 => cases hout
    case h_2 compound hop =>
      cases tokens with
      | nil => cases hop
      | cons op rest =>
        simp only [Reading.within, Reading.map, List.tail_cons] at hout ends
        cases hread : (Expr.read (site.context a) binding.kind rest).outcome with
        | error e => simp [hread, Except.map] at hout
        | ok e =>
          simp only [hread, Except.map] at hout
          cases hout
          exact .assign hfirst htarget hop hread (by simpa only [htarget, hop] using ends)

theorem leafReads_of_print {newline : Bool}
    (hfirst : first.kind = .keyword (if newline then .println else .print))
    (hout : (readPrint (site.context a) first.position newline tokens).outcome = .ok statement)
    (ends : Ends (readPrint (site.context a) first.position newline tokens).rest left) :
    LeafReads site a first tokens statement left a := by
  unfold readPrint at hout ends
  simp only at hout ends
  split at hout
  case isTrue hends =>
    cases hout
    rw [if_pos hends] at ends
    exact .print hfirst ends
  case isFalse hends =>
    rw [if_neg hends] at ends
    split at hout
    case h_1 => cases hout
    case h_2 => cases hout
    case h_3 kind hkind =>
      simp only [hkind, Reading.map] at hout ends
      cases hread : (Expr.read (site.context a) kind tokens).outcome with
      | error e => simp [hread, Except.map] at hout
      | ok e =>
        simp only [hread, Except.map] at hout
        cases hout
        exact .printValue hfirst hread ends

theorem endsBefore_of_ends {ctx : Context} (ends : Ends tokens left) :
    endsBefore (ctx.front tokens).kind = true := by
  cases ends with
  | input => rfl
  | line h => simp [Context.front, endsBefore, h]
  | before h => obtain h | h | h := h <;> simp [Context.front, endsBefore, h]

/-- No expression begins with a token in front of which a statement may end. -/
theorem endsBefore_of_kindOf? {ctx : Context} {token : Token} {kind : Kind}
    (h : ctx.kindOf? token = .ok (some kind)) : endsBefore token.kind = false := by
  unfold Context.kindOf? at h
  split at h <;> simp_all [endsBefore]

theorem kindOf?_of_read {ctx : Context} {kind : Kind} {e : Expr}
    (h : (Expr.read ctx kind tokens).outcome = .ok e) :
    ctx.kindOf? (ctx.front tokens) = .ok (some kind) ∧
      endsBefore (ctx.front tokens).kind = false := by
  unfold Expr.read at h
  split at h
  case h_1 => cases h
  case h_2 => cases h
  case h_3 actual hkind =>
    split at h
    case isFalse => cases h
    case isTrue hactual =>
      subst hactual
      exact ⟨hkind, endsBefore_of_kindOf? hkind⟩

theorem readUnfinished_of_leafReads (h : LeafReads site a first tokens statement left b) :
    (readUnfinished site a first tokens).outcome = .ok statement ∧
      Ends (readUnfinished site a first tokens).rest left ∧
      (readUnfinished site a first tokens).arena = b := by
  unfold readUnfinished
  cases h with
  | @declare name type kind rest _ hfirst hname htype hfree ends =>
    have hinit : readInitial (site.context a) kind rest = .stay rest (.ok none) := by
      cases ends with
      | input => rfl
      | line h => simp [readInitial, h]
      | before h => obtain h | h | h := h <;> simp [readInitial, h]
    simp only [hfirst, readDeclare_eq hname htype hfree, hinit]
    exact ⟨rfl, ends, rfl⟩
  | @declareValue name type equals kind rest _ e hfirst hname htype hfree hequals hread ends =>
    simp only [hfirst, readDeclare_eq hname htype hfree, readInitial, hequals, if_true]
    exact ⟨by simp [StatementReading.plain, Reading.within, Reading.map, Reading.behind, hread,
      Except.map], ends, rfl⟩
  | assign hfirst htarget hop hread ends =>
    have htarget' : (site.context a).resolve? first.literal = some _ := htarget
    simp only [hfirst, readAssign, htarget', Context.front, hop, List.tail_cons]
    exact ⟨by simp [StatementReading.plain, Reading.within, Reading.map, hread, Except.map], ends,
      rfl⟩
  | @print newline _ _ hfirst ends =>
    cases newline <;> simp only [hfirst, readPrint, endsBefore_of_ends ends, if_true] <;>
      exact ⟨rfl, ends, rfl⟩
  | @printValue newline _ _ _ _ hfirst hread ends =>
    obtain ⟨hkind, hgoes⟩ := kindOf?_of_read hread
    cases newline <;>
      simp only [hfirst, readPrint, hgoes, Bool.false_eq_true, if_false, hkind, if_true] <;>
      exact ⟨by simp [StatementReading.plain, Reading.map, hread, Except.map], ends, rfl⟩

theorem leafReads_of_readUnfinished (ht : a.table site.table = .ok t)
    (hout : (readUnfinished site a first tokens).outcome = .ok statement)
    (ends : Ends (readUnfinished site a first tokens).rest left) :
    LeafReads site a first tokens statement left (readUnfinished site a first tokens).arena := by
  revert hout ends
  unfold readUnfinished
  split
  case h_1 h => exact leafReads_of_declare h ht
  case h_2 h => exact leafReads_of_assign h
  case h_3 h =>
    have hfirst : first.kind = .keyword (if false then .println else .print) := h
    exact leafReads_of_print hfirst
  case h_4 h =>
    have hfirst : first.kind = .keyword (if true then .println else .print) := h
    exact leafReads_of_print hfirst
  case h_5 =>
    intro hout
    cases hout

theorem startsLeaf_of_leafReads (h : LeafReads site a first tokens statement left b) :
    first.StartsLeaf := by
  unfold Token.StartsLeaf
  cases h with
  | declare hfirst => simp [hfirst]
  | declareValue hfirst => simp [hfirst]
  | assign hfirst => simp [hfirst]
  | print hfirst => simp [hfirst]
  | printValue hfirst => simp [hfirst]

/-- The rules for statements that hold no statements are complete. -/
theorem read_leaf_iff (hleaf : first.StartsLeaf) (ht : a.table site.table = .ok t) :
    ((Statement.read site a first tokens).outcome = .ok statement ∧
      (Statement.read site a first tokens).rest = left ∧
      (Statement.read site a first tokens).arena = b) ↔
      LeafReads site a first tokens statement left b := by
  rw [read_eq_readUnfinished hleaf]
  constructor
  · rintro ⟨hout, hrest, rfl⟩
    obtain ⟨hout, ends⟩ := StatementReading.finish_eq_ok_iff.mp ⟨hout, hrest⟩
    simpa using leafReads_of_readUnfinished ht hout ends
  · intro h
    obtain ⟨hout, ends, harena⟩ := readUnfinished_of_leafReads h
    obtain ⟨hout, hrest⟩ := StatementReading.finish_eq_ok_iff.mpr ⟨hout, ends⟩
    exact ⟨hout, hrest, by simpa using harena⟩

/-- Whether it is read or not, a statement that holds no statements leaves the arena
as it was or declares one new name in its block, which is one of its tokens. -/
theorem read_arena_of_startsLeaf (tokens : List Token) (hleaf : first.StartsLeaf)
    (ht : a.table site.table = .ok t) :
    (Statement.read site a first tokens).arena = a ∨
      ∃ name ∈ tokens, ∃ kind, name.kind = .identifier ∧
        a.getLocal site.table name.literal = .ok none ∧
        (Statement.read site a first tokens).arena =
          (a.declare site.table (.declared name.literal kind)).2 := by
  rw [read_eq_readUnfinished hleaf]
  simp only [StatementReading.announce_arena, StatementReading.finish_arena]
  unfold readUnfinished
  split
  case h_1 =>
    obtain ⟨name, type, rest, kind, rfl, hname, htype, hfree⟩ | ⟨e, -, harena⟩ :=
      readDeclare_cases site a first.position tokens ht
    · rw [readDeclare_eq hname htype hfree]
      exact .inr ⟨name, List.mem_cons_self, kind, hname, hfree, rfl⟩
    · exact .inl harena
  all_goals exact .inl rfl

end leaf

end Statement

end LineScript
