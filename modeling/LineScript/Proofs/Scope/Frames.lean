import LineScript.Proofs.Scope.Growth

/-!
# Frames

A stack of frames is the plain picture of nested scopes: one list of names for each
open block, the innermost first. What stands beside a name is left open. A grammar
keeps kinds there, a resolver keeps symbols, an interpreter keeps values.

`Arena.Mirrors` says that a stack lists what the tables of a chain bind. Opening a
table then pushes an empty frame, declaring a name binds it in the top frame, and
resolving a name is a lookup in the stack.
-/

namespace LineScript

abbrev Frame (β : Type) : Type :=
  List (String × β)

abbrev Frames (β : Type) : Type :=
  List (Frame β)

namespace Frame

variable {β γ : Type}

/-- What the name stands for in this frame. -/
def find? (frame : Frame β) (name : String) : Option β :=
  List.lookup name frame

/-- Replaces what a name stands for. -/
def set (frame : Frame β) (name : String) (b : β) : Frame β :=
  List.map (fun entry => if entry.1 = name then (name, b) else entry) frame

def map (f : β → γ) (frame : Frame β) : Frame γ :=
  List.map (fun entry => (entry.1, f entry.2)) frame

variable {frame : Frame β} {name other : String} {b : β} {f : β → γ}

@[simp] theorem find?_nil : find? ([] : Frame β) name = none := rfl

@[simp] theorem find?_cons :
    find? ((name, b) :: frame) other = if other = name then some b else find? frame other := by
  by_cases h : other = name
  · simp [find?, h]
  · simp [find?, List.lookup_cons, h, beq_eq_false_iff_ne.mpr h]

@[simp] theorem map_nil : map f ([] : Frame β) = [] := rfl

@[simp] theorem map_cons : map f ((name, b) :: frame) = (name, f b) :: map f frame := rfl

@[simp] theorem find?_map : (frame.map f).find? name = (frame.find? name).map f := by
  induction frame with
  | nil => rfl
  | cons entry frame ih =>
    obtain ⟨key, b⟩ := entry
    by_cases h : name = key <;> simp [h, ih]

theorem mem_of_find? (h : frame.find? name = some b) : (name, b) ∈ frame := by
  induction frame with
  | nil => cases h
  | cons entry frame ih =>
    obtain ⟨key, c⟩ := entry
    rw [find?_cons] at h
    split at h
    case isTrue hname =>
      cases h
      exact hname ▸ List.mem_cons_self
    case isFalse => exact List.mem_cons_of_mem _ (ih h)

theorem find?_eq_none_iff : frame.find? name = none ↔ name ∉ List.map Prod.fst frame := by
  induction frame with
  | nil => simp
  | cons entry frame ih =>
    obtain ⟨key, c⟩ := entry
    by_cases h : name = key <;> simp [h, ih]

theorem map_congr {g : β → γ} (h : ∀ entry ∈ frame, f entry.2 = g entry.2) :
    frame.map f = frame.map g :=
  List.map_congr_left fun entry he => by rw [h entry he]

theorem map_set : (frame.set name b).map f = (frame.map f).set name (f b) := by
  simp only [map, set, List.map_map]
  refine List.map_congr_left fun entry _ => ?_
  simp only [Function.comp_apply]
  split <;> rfl

/-- Two views of a frame that differ in nothing but the name. -/
theorem map_eq_set {g : β → γ} {c : γ} (hself : ∀ entry ∈ frame, entry.1 = name → g entry.2 = c)
    (hother : ∀ entry ∈ frame, entry.1 ≠ name → g entry.2 = f entry.2) :
    frame.map g = (frame.map f).set name c := by
  simp only [map, set, List.map_map]
  refine List.map_congr_left fun entry he => ?_
  by_cases h : entry.1 = name
  · simp [h, hself entry he h]
  · simp [h, hother entry he h]

end Frame

namespace Frames

variable {β γ : Type}

/-- What the name stands for in the innermost frame that binds it. -/
def lookup : Frames β → String → Option β
  | [], _ => none
  | frame :: outer, name => (Frame.find? frame name).or (lookup outer name)

/-- What the name stands for in the top frame. -/
def top? : Frames β → String → Option β
  | [], _ => none
  | frame :: _, name => Frame.find? frame name

/-- Binds a name in the top frame. -/
def bind : Frames β → String → β → Frames β
  | [], _, _ => []
  | frame :: outer, name, b => ((name, b) :: frame) :: outer

/-- Replaces what a name stands for in the innermost frame that binds it. -/
def assign : Frames β → String → β → Frames β
  | [], _, _ => []
  | frame :: outer, name, b =>
    if (Frame.find? frame name).isSome then Frame.set frame name b :: outer
    else frame :: assign outer name b

def map (f : β → γ) (frames : Frames β) : Frames γ :=
  List.map (Frame.map f) frames

variable {frames : Frames β} {frame : Frame β} {name other : String} {b : β} {f : β → γ}

@[simp] theorem lookup_cons :
    lookup (frame :: frames) name = (Frame.find? frame name).or (lookup frames name) := rfl

@[simp] theorem top?_cons : top? (frame :: frames) name = Frame.find? frame name := rfl

@[simp] theorem map_nil : map f ([] : Frames β) = [] := rfl

@[simp] theorem map_cons : map f (frame :: frames) = Frame.map f frame :: map f frames := rfl

@[simp] theorem lookup_map : (frames.map f).lookup name = (frames.lookup name).map f := by
  induction frames with
  | nil => rfl
  | cons frame frames ih => cases h : Frame.find? frame name <;> simp [h, ih]

@[simp] theorem top?_map : (frames.map f).top? name = (frames.top? name).map f := by
  cases frames <;> simp [top?]

@[simp] theorem map_bind : (frames.bind name b).map f = (frames.map f).bind name (f b) := by
  cases frames <;> rfl

theorem assign_cons_of_some {old : β} (h : Frame.find? frame name = some old) :
    assign (frame :: frames) name b = Frame.set frame name b :: frames := by
  simp [assign, h]

theorem assign_cons_of_none (h : Frame.find? frame name = none) :
    assign (frame :: frames) name b = frame :: assign frames name b := by
  simp [assign, h]

@[simp] theorem map_assign : (frames.assign name b).map f = (frames.map f).assign name (f b) := by
  induction frames with
  | nil => rfl
  | cons frame frames ih =>
    cases h : Frame.find? frame name with
    | some old =>
      rw [assign_cons_of_some h, map_cons, Frame.map_set, map_cons,
        assign_cons_of_some (by rw [Frame.find?_map, h]; rfl)]
    | none =>
      rw [assign_cons_of_none h, map_cons, ih, map_cons,
        assign_cons_of_none (by rw [Frame.find?_map, h]; rfl)]

theorem map_congr {g : β → γ} (h : ∀ entry ∈ frames.flatten, f entry.2 = g entry.2) :
    frames.map f = frames.map g :=
  List.map_congr_left fun _ hframe =>
    Frame.map_congr fun entry he => h entry (List.mem_flatten_of_mem hframe he)

end Frames

/-! ## Symbols in frames -/

namespace Frames

variable {frames : Frames Arena.Binding} {b : Arena.Binding} {name : String}

/-- The symbols that the frames bind. -/
def symbols (frames : Frames Arena.Binding) : List SymbolId :=
  frames.flatten.map (·.2.symbol)

@[simp] theorem symbols_nil : symbols [] = [] := rfl

@[simp] theorem symbols_cons {frame : Frame Arena.Binding} :
    symbols (frame :: frames) = List.map (·.2.symbol) frame ++ symbols frames := by
  simp [symbols]

@[simp] theorem symbols_append {gone : Frames Arena.Binding} :
    symbols (frames ++ gone) = symbols frames ++ symbols gone := by
  simp [symbols]

theorem mem_symbols_of_mem {entry : String × Arena.Binding} (h : entry ∈ frames.flatten) :
    entry.2.symbol ∈ frames.symbols :=
  List.mem_map_of_mem h

theorem mem_symbols_of_lookup (h : frames.lookup name = some b) : b.symbol ∈ frames.symbols := by
  induction frames with
  | nil => cases h
  | cons frame frames ih =>
    rw [lookup_cons, Option.or_eq_some_iff] at h
    obtain hfind | ⟨-, hlookup⟩ := h
    · exact mem_symbols_of_mem
        (List.mem_flatten_of_mem List.mem_cons_self (Frame.mem_of_find? hfind))
    · rw [symbols_cons]
      exact List.mem_append_right _ (ih hlookup)

end Frames

namespace Arena

variable {a b : Arena} {id : TableId} {start : Option TableId} {frames : Frames Binding}
variable {name : String} {kind : Kind} {target : SymbolId}

/-- What a reader learns about a symbol. -/
def binding? (a : Arena) (target : SymbolId) : Option Binding :=
  match a.symbol target with
  | .ok s => some { symbol := target, kind := s.kind }
  | .error _ => none

theorem binding?_eq {s : Symbol} (hs : a.symbol target = .ok s) :
    a.binding? target = some { symbol := target, kind := s.kind } := by
  simp [binding?, hs]

/-- The frames list what the tables bind, from the given table on through its parents. -/
inductive Mirrors (a : Arena) : Option TableId → Frames Binding → Prop where
  | nil : Mirrors a none []
  | cons {id : TableId} {t : Table} {frame : Frame Binding} {outer : Frames Binding}
      (ht : a.table id = .ok t)
      (hframe : ∀ name, frame.find? name = (t.find? name).bind a.binding?)
      (rest : Mirrors a t.parent outer) : Mirrors a (some id) (frame :: outer)

namespace Mirrors

theorem getLocal_eq_none_iff (h : a.Mirrors (some id) frames) (ha : a.WellFormed) :
    a.getLocal id name = .ok none ↔ frames.top? name = none := by
  cases h with
  | @cons _ t _ _ ht hframe _ =>
    rw [getLocal_eq_ok ht, Frames.top?_cons, hframe name]
    cases hf : t.find? name with
    | none => simp
    | some target =>
      obtain ⟨s, hs, -⟩ := ha.named ht hf
      simp [binding?_eq hs]

/-- Resolving a name is a lookup in the frames. -/
theorem resolve?_eq (h : a.Mirrors (some id) frames) (ha : a.WellFormed) :
    a.resolve? id name = frames.lookup name := by
  generalize hstart : some id = start at h
  induction h generalizing id with
  | nil => cases hstart
  | @cons id' t frame outer ht hframe rest ih =>
    cases hstart
    unfold resolve?
    rw [ha.layered.get_eq ht, Frames.lookup_cons, hframe name]
    cases hf : t.find? name with
    | some target =>
      obtain ⟨s, hs, -⟩ := ha.named ht hf
      simp [binding?_eq hs, hs]
    | none =>
      cases hp : t.parent with
      | none =>
        rw [hp] at rest
        cases rest
        rfl
      | some p => exact ih hp.symm

/-- Frames keep mirroring a chain whose tables are left alone. -/
theorem of_tables (h : a.Mirrors start frames) (ha : a.WellFormed) (bound : Nat)
    (hstart : ∀ id, start = some id → id.index < bound)
    (htables : ∀ ⦃id t⦄, id.index < bound → a.table id = .ok t → b.table id = .ok t)
    (hsymbols : ∀ ⦃target s⦄, a.symbol target = .ok s → b.symbol target = .ok s) :
    b.Mirrors start frames := by
  induction h with
  | nil => exact .nil
  | @cons id t frame outer ht hframe _ ih =>
    have hid := hstart id rfl
    refine .cons (htables hid ht) ?_ (ih ?_)
    · intro name
      rw [hframe name]
      cases hf : t.find? name with
      | none => rfl
      | some target =>
        obtain ⟨s, hs, -⟩ := ha.named ht hf
        simp [binding?_eq hs, binding?_eq (hsymbols hs)]
    · intro p hp
      exact Nat.lt_trans (ha.layered ht hp) hid

/-- What happens in a newly opened table is not seen in the frames around it. -/
theorem of_opened {parent : Option TableId} (h : a.Mirrors (some id) frames) (ha : a.WellFormed)
    (hgrows : (a.openTable parent).2.Grows (a.openTable parent).1 b) :
    b.Mirrors (some id) frames := by
  refine h.of_tables ha a.tables.size ?_ ?_ ?_
  · rintro _ ⟨⟩
    cases h with
    | cons ht => exact index_lt_of_table ht
  · exact fun _ _ _ ht => hgrows.table_of_opened ht
  · exact fun _ _ hs => hgrows.symbol hs

theorem openTable (h : a.Mirrors (some id) frames) (ha : a.WellFormed) :
    (a.openTable (some id)).2.Mirrors (some (a.openTable (some id)).1) ([] :: frames) := by
  refine .cons table_openTable_new ?_ (h.of_opened ha (Grows.refl _ _))
  intro name
  rfl

theorem declare (h : a.Mirrors (some id) frames) (ha : a.WellFormed) :
    (a.declare id (.declared name kind)).2.Mirrors (some id)
      (frames.bind name { symbol := (a.declare id (.declared name kind)).1, kind }) := by
  cases h with
  | @cons _ t frame outer ht hframe rest =>
    refine .cons (table_declare_self ht) ?_ ?_
    · intro other
      rw [Table.find?_bind, Frame.find?_cons]
      by_cases hother : other = name
      · subst hother
        simp [Symbol.declared, binding?_eq symbol_declare_new]
      · rw [if_neg hother, if_neg (by exact hother), hframe other]
        cases hf : t.find? other with
        | none => rfl
        | some target =>
          obtain ⟨s, hs, -⟩ := ha.named ht hf
          simp [binding?_eq hs, binding?_eq (symbol_declare_of_symbol hs)]
    · refine rest.of_tables ha id.index ?_ ?_ ?_
      · exact fun p hp => ha.layered ht hp
      · intro other u hlt hu
        rwa [table_declare_of_ne]
        rintro rfl
        exact Nat.lt_irrefl _ hlt
      · exact fun _ _ hs => symbol_declare_of_symbol hs

end Mirrors

end Arena

end LineScript
