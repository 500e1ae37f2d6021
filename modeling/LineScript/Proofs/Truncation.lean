import LineScript.Proofs.Running

/-!
# Output cut off by a full sink

A limited sink stores what fits and refuses the rest. A run into such a sink is compared
with the run of the same program into a sink that takes everything. As long as all output
fits, the runs do not differ. Otherwise the limited run ends at the first print that does
not fit: it stores as many bytes as fit, notes what the other run had noted up to there,
adds one output error, and leaves the arena as it was (`Executor.execute_truncated`).

What the unlimited run does up to a print is told by `Program.prints`, which lists the
print statements in the order in which they are run, each with the state in front of it
and the errors noted so far. The two runs are followed side by side (`Twins`), and each
part of a program keeps them side by side or has the limited run end in it
(`Truncates`).
-/

namespace LineScript

/-! ## Limited sinks -/

/-- Starting from this state the sink takes `room` more bytes. It stores the part of a
request that fits and refuses a request that does not fit whole with the message. -/
structure Sink.Limited {σ : Type} (out : Sink σ) (bytes : σ → ByteArray) (room : Nat)
    (message : String) (start : σ) : Prop where
  fits : ∀ ⦃s⦄ (data : ByteArray), out.Accepts start s →
    (bytes s).size + data.size ≤ (bytes start).size + room →
    (out.write s data).1 = none ∧ bytes (out.write s data).2 = bytes s ++ data
  full : ∀ ⦃s⦄ (data : ByteArray), out.Accepts start s →
    (bytes start).size + room < (bytes s).size + data.size →
    (out.write s data).1 = some message ∧ bytes (out.write s data).2 =
      bytes s ++ data.extract 0 ((bytes start).size + room - (bytes s).size)
  flush : ∀ ⦃s⦄, out.Accepts start s →
    (out.flush s).1 = none ∧ bytes (out.flush s).2 = bytes s

/-- A buffer with a limit takes as many bytes as are left to the limit. -/
theorem Buffer.limited {b : Buffer} {limit : Nat} (hlimit : b.limit = some limit)
    (hflush : b.flushMessage = none) :
    sink.Limited bytes (limit - b.bytes.size) b.fullMessage b := by
  -- Accepted requests keep the settings, and the bytes stay within the limit unless they
  -- were beyond it from the start.
  have hkept : ∀ c, sink.Accepts b c → c.limit = some limit ∧ c.fullMessage = b.fullMessage ∧
      c.flushMessage = none ∧ b.bytes.size ≤ c.bytes.size ∧
      c.bytes.size ≤ max limit b.bytes.size := by
    intro c hc
    induction hc with
    | idle => exact ⟨hlimit, rfl, hflush, Nat.le_refl _, Nat.le_max_right ..⟩
    | @write c d data _ hwrite ih =>
      obtain ⟨hc, hmessage, hquiet, hlow, hhigh⟩ := ih
      simp only [sink, write, hc] at hwrite
      split at hwrite
      case isTrue hfits =>
        simp only [Prod.mk.injEq, true_and] at hwrite
        subst hwrite
        refine ⟨rfl, hmessage, hquiet, ?_, ?_⟩
        · simp only [ByteArray.size_append]
          omega
        · simp only [ByteArray.size_append]
          omega
      case isFalse => simp at hwrite
    | flush _ hanswer ih =>
      simp only [sink, Prod.mk.injEq] at hanswer
      exact hanswer.2 ▸ ih
  refine ⟨?_, ?_, ?_⟩
  · intro c data hc hroom
    obtain ⟨hc, -, -, hlow, hhigh⟩ := hkept c hc
    have hfits : data.size ≤ limit - c.bytes.size := by omega
    simp [sink, write, hc, hfits]
  · intro c data hc hroom
    obtain ⟨hc, hmessage, -, hlow, hhigh⟩ := hkept c hc
    have hfull : ¬data.size ≤ limit - c.bytes.size := by omega
    have hpart : b.bytes.size + (limit - b.bytes.size) - c.bytes.size =
        limit - c.bytes.size := by omega
    simp [sink, write, hc, hfull, hmessage, hpart]
  · intro c hc
    obtain ⟨-, -, hquiet, -⟩ := hkept c hc
    exact ⟨hquiet, rfl⟩

/-! ## The prints of a run -/

/-- A print statement that is about to run. -/
structure Moment (σ : Type) where
  /-- The state in which it runs. -/
  state : State σ
  /-- The errors that were noted before. -/
  errors : List RuntimeError
  table : TableId
  position : Position
  newline : Bool
  payload : Option Expr

namespace Moment

variable {σ : Type}

/-- The moment, if errors were noted before those that it knows of. -/
def after (errors : List RuntimeError) (m : Moment σ) : Moment σ :=
  { m with errors := errors ++ m.errors }

/-- Whether the statement brings the output beyond the room. -/
def exceeds (out : Sink σ) (bytes : σ → ByteArray) (start : σ) (room : Nat) (m : Moment σ) :
    Bool :=
  (bytes start).size + room <
    (bytes (m.state.print out m.table m.newline m.payload).1.sink).size

end Moment

namespace Statement

variable {σ : Type}

mutual

/-- The print statements that run as part of a statement. -/
def prints (out : Sink σ) (table : TableId) (s : State σ) : Statement → List (Moment σ)
  | .print position newline payload =>
    [{ state := { s with position }, errors := [], table, position, newline, payload }]
  | .block position inner body =>
    if s.arena.contains inner then printsAll out inner { s with position } body else []
  | _ => []

def printsAll (out : Sink σ) (table : TableId) (s : State σ) : List Statement → List (Moment σ)
  | [] => []
  | statement :: rest =>
    let first := statement.run out table s
    statement.prints out table s ++
      if Halt.stops first.halt then []
      else (printsAll out table first.state rest).map (Moment.after first.noted)

end

end Statement

/-- The print statements that run when the executor runs the program. -/
def Program.prints {σ : Type} (out : Sink σ) (x : Executor) (sink : σ) (p : Program) :
    List (Moment σ) :=
  if p.arena.contains p.root.table then
    Statement.printsAll out p.root.table (p.start x sink) p.root.body
  else []

/-! ## Two runs side by side -/

/-- A sink that takes everything and a limited one, each in the state in which its run
begins. -/
structure SinkPair (σ τ : Type) where
  out : Sink σ
  bytes : σ → ByteArray
  start : σ
  lossless : out.Lossless bytes start
  cut : Sink τ
  kept : τ → ByteArray
  origin : τ
  room : Nat
  message : String
  limited : cut.Limited kept room message origin

/-- Whether a print statement of the unlimited run brings the output beyond the room. -/
def SinkPair.exceeds {σ τ : Type} (v : SinkPair σ τ) (m : Moment σ) : Bool :=
  m.exceeds v.out v.bytes v.start v.room

/-- Both runs came to the same point and wrote the same output. -/
structure Twins {σ τ : Type} (v : SinkPair σ τ) (output : ByteArray) (s : State σ)
    (t : State τ) : Prop where
  arena : t.arena = s.arena
  position : t.position = s.position
  accepts : v.out.Accepts v.start s.sink
  bytes : v.bytes s.sink = v.bytes v.start ++ output
  accepts' : v.cut.Accepts v.origin t.sink
  kept : v.kept t.sink = v.kept v.origin ++ output
  fits : output.size ≤ v.room

/-- All output of a part of a program fitted, and the runs are still the same. The prints
are those of the part. -/
structure Continued {σ τ : Type} (v : SinkPair σ τ) (prints : List (Moment σ))
    (output : ByteArray) (whole : Effect σ) (part : Effect τ) : Prop where
  twins : Twins v output whole.state part.state
  errors : part.errors = whole.errors
  halt : part.halt = whole.halt
  prints : prints.find? v.exceeds = none

/-- The limited run ended at the first print that did not fit. -/
structure CutOff {σ τ : Type} (v : SinkPair σ τ) (prints : List (Moment σ))
    (output : ByteArray) (m : Moment σ) (whole : Effect σ) (part : Effect τ) : Prop where
  accepts : v.out.Accepts v.start whole.state.sink
  bytes : v.bytes whole.state.sink = v.bytes v.start ++ output
  beyond : v.room < output.size
  prints : prints.find? v.exceeds = some m
  noted : m.errors <+: whole.noted
  arena : part.state.arena = m.state.arena
  errors : part.errors = m.errors
  halt : part.halt = some (.error ⟨m.position, .output v.message⟩)
  kept : v.kept part.state.sink = v.kept v.origin ++ output.extract 0 v.room

/-- How a part of a program ends in both runs. -/
inductive Truncates {σ τ : Type} (v : SinkPair σ τ) (prints : List (Moment σ))
    (whole : Effect σ) (part : Effect τ) : Prop where
  | continued {output : ByteArray} (h : Continued v prints output whole part)
  | cutOff {output : ByteArray} {m : Moment σ} (h : CutOff v prints output m whole part)

section output

variable {output more : ByteArray} {room : Nat}

theorem extract_of_size_le (h : output.size ≤ room) : output.extract 0 room = output := by
  have happend := @ByteArray.extract_append_extract output 0 output.size room
  have hrest : output.extract output.size room = ByteArray.empty :=
    ByteArray.extract_eq_empty_iff.mpr (Nat.min_le_right ..)
  rw [hrest, ByteArray.append_empty, ByteArray.extract_zero_size, Nat.zero_min,
    Nat.max_eq_right h] at happend
  exact happend.symm

/-- What is appended behind the room is cut off. -/
theorem extract_append_of_le_size (h : room ≤ output.size) :
    (output ++ more).extract 0 room = output.extract 0 room := by
  have hmore : more.extract (0 - output.size) (room - output.size) = ByteArray.empty :=
    ByteArray.extract_eq_empty_iff.mpr (by omega)
  rw [ByteArray.extract_append, hmore, ByteArray.append_empty]

end output

section write

variable {σ τ : Type} {v : SinkPair σ τ} {output : ByteArray} {t : State τ}

/-- A text is stored whole, or its part that fits is stored. -/
theorem State.write_of_limited (haccepts : v.cut.Accepts v.origin t.sink)
    (hkept : v.kept t.sink = v.kept v.origin ++ output) (hfits : output.size ≤ v.room)
    (text : String) :
    ((output ++ text.toUTF8).size ≤ v.room ∧ (t.write v.cut text).2 = none ∧
      v.cut.Accepts v.origin (t.write v.cut text).1.sink ∧
      v.kept (t.write v.cut text).1.sink = v.kept v.origin ++ (output ++ text.toUTF8)) ∨
    (v.room < (output ++ text.toUTF8).size ∧
      (t.write v.cut text).2 = some (t.failure (.output v.message)) ∧
      v.kept (t.write v.cut text).1.sink =
        v.kept v.origin ++ (output ++ text.toUTF8).extract 0 v.room) := by
  have hsize : (v.kept t.sink).size = (v.kept v.origin).size + output.size := by
    rw [hkept, ByteArray.size_append]
  unfold State.write
  split
  case isTrue hempty =>
    have htext : text = "" := by simpa using hempty
    subst htext
    exact .inl ⟨by simpa using hfits, rfl, haccepts, by simpa using hkept⟩
  case isFalse =>
    by_cases hroom : (output ++ text.toUTF8).size ≤ v.room
    · left
      rw [ByteArray.size_append] at hroom
      obtain ⟨hanswer, hbytes⟩ := v.limited.fits text.toUTF8 haccepts (by omega)
      generalize hwrite : v.cut.write t.sink text.toUTF8 = answer at hanswer hbytes
      obtain ⟨refusal, sink⟩ := answer
      cases hanswer
      refine ⟨by rwa [ByteArray.size_append], rfl, haccepts.write hwrite, ?_⟩
      rw [hbytes, hkept, ByteArray.append_assoc]
    · right
      rw [ByteArray.size_append] at hroom
      obtain ⟨hanswer, hbytes⟩ := v.limited.full text.toUTF8 haccepts (by omega)
      generalize v.cut.write t.sink text.toUTF8 = answer at hanswer hbytes
      obtain ⟨refusal, sink⟩ := answer
      cases hanswer
      refine ⟨by rw [ByteArray.size_append]; omega, rfl, ?_⟩
      have hpart : (v.kept v.origin).size + v.room - (v.kept t.sink).size =
          v.room - output.size := by omega
      rw [hbytes, hpart, hkept, ByteArray.append_assoc, ByteArray.extract_append,
        extract_of_size_le hfits, Nat.zero_sub]

theorem State.writeAll_of_limited (haccepts : v.cut.Accepts v.origin t.sink)
    (hkept : v.kept t.sink = v.kept v.origin ++ output) (hfits : output.size ≤ v.room)
    (texts : List String) :
    ((output ++ encodeAll texts).size ≤ v.room ∧ (t.writeAll v.cut texts).2 = none ∧
      v.cut.Accepts v.origin (t.writeAll v.cut texts).1.sink ∧
      v.kept (t.writeAll v.cut texts).1.sink = v.kept v.origin ++ (output ++ encodeAll texts)) ∨
    (v.room < (output ++ encodeAll texts).size ∧
      (t.writeAll v.cut texts).2 = some (t.failure (.output v.message)) ∧
      v.kept (t.writeAll v.cut texts).1.sink =
        v.kept v.origin ++ (output ++ encodeAll texts).extract 0 v.room) := by
  induction texts generalizing t output with
  | nil => exact .inl ⟨by simpa [encodeAll] using hfits, rfl, haccepts,
      by simpa [encodeAll, State.writeAll] using hkept⟩
  | cons text rest ih =>
    have hencode : output ++ encodeAll (text :: rest) =
        output ++ text.toUTF8 ++ encodeAll rest := (ByteArray.append_assoc ..).symm
    rw [hencode]
    obtain ⟨hroom, hnone, haccepted, hstored⟩ | ⟨hroom, hhalt, hstored⟩ :=
      State.write_of_limited haccepts hkept hfits text
    · rw [State.writeAll_cons_of_ok rest hnone]
      have hlater := ih haccepted hstored hroom
      simpa only [State.failure, State.write_position] using hlater
    · right
      rw [State.writeAll_cons_of_halt rest hhalt]
      refine ⟨?_, hhalt, ?_⟩
      · rw [ByteArray.size_append]
        omega
      · rw [hstored, extract_append_of_le_size (Nat.le_of_lt hroom)]

end write

/-! ## The unlimited run -/

/-- The sink took requests, and bytes were appended. -/
structure Sink.Appends {σ : Type} (out : Sink σ) (bytes : σ → ByteArray) (start s t : σ) :
    Prop where
  accepts : out.Accepts start t
  bytes : ∃ more, bytes t = bytes s ++ more

section unlimited

variable {σ : Type} {out : Sink σ} {bytes : σ → ByteArray} {start : σ}

theorem Sink.Appends.refl {s : σ} (h : out.Accepts start s) : out.Appends bytes start s s :=
  ⟨h, ByteArray.empty, ByteArray.append_empty.symm⟩

theorem Sink.Appends.trans {s t u : σ} (hst : out.Appends bytes start s t)
    (htu : out.Appends bytes start t u) : out.Appends bytes start s u := by
  obtain ⟨first, hfirst⟩ := hst.bytes
  obtain ⟨later, hlater⟩ := htu.bytes
  exact ⟨htu.accepts, first ++ later, by rw [hlater, hfirst, ByteArray.append_assoc]⟩

theorem Statement.appends_leaf {statement : Statement} {s : State σ} {table : TableId}
    {position : Position} (hlossless : out.Lossless bytes start)
    (hleaf : statement.leaf? = some position) (hs : out.Accepts start s.sink) :
    out.Appends bytes start s.sink (statement.run out table s).state.sink := by
  rw [run_leaf hleaf]
  cases hdeed : statement.deed s.arena table with
  | error halt => exact .refl hs
  | ok deed =>
    obtain ⟨-, haccepts, hbytes⟩ := State.writeAll_of_lossless
      (s := { s with position, arena := deed.arena }) hlossless hs deed.texts
    exact ⟨haccepts, _, hbytes⟩

mutual

theorem Statement.appends_run (hlossless : out.Lossless bytes start) :
    ∀ (statement : Statement) {s : State σ} {table : TableId}, out.Accepts start s.sink →
    out.Appends bytes start s.sink (statement.run out table s).state.sink
  | .null, s, table, hs => by
    rw [run]
    exact .refl hs
  | .declare .., _, _, hs => Statement.appends_leaf hlossless rfl hs
  | .assign .., _, _, hs => Statement.appends_leaf hlossless rfl hs
  | .print .., _, _, hs => Statement.appends_leaf hlossless rfl hs
  | .block position inner body, s, table, hs => by
    rw [run_block_eq]
    cases hcontains : State.arena { s with position } |>.contains inner with
    | true =>
      have hbody : out.Appends bytes start s.sink
          (runAll out inner { s with position } body).state.sink :=
        Statement.appends_runAll hlossless body (s := { s with position }) hs
      rw [inside_of_contains hcontains]
      exact hbody
    | false =>
      rw [inside_of_missing hcontains]
      exact .refl hs

theorem Statement.appends_runAll (hlossless : out.Lossless bytes start) :
    ∀ (body : List Statement) {s : State σ} {table : TableId}, out.Accepts start s.sink →
    out.Appends bytes start s.sink (runAll out table s body).state.sink
  | [], s, table, hs => by
    rw [runAll]
    exact .refl hs
  | statement :: rest, s, table, hs => by
    have hfirst : out.Appends bytes start s.sink (statement.run out table s).state.sink :=
      Statement.appends_run hlossless statement hs
    cases hstops : Halt.stops (statement.run out table s).halt with
    | true =>
      rw [runAll_of_stops hstops]
      exact hfirst
    | false =>
      rw [runAll_of_goes hstops]
      exact hfirst.trans (Statement.appends_runAll hlossless rest hfirst.accepts)

end

end unlimited

/-! ## Statements -/

section statements

variable {σ τ : Type} {v : SinkPair σ τ} {output : ByteArray} {s : State σ} {t : State τ}
variable {table : TableId} {position : Position}

theorem Twins.begin (h : Twins v output s t) (position : Position) :
    Twins v output { s with position } { t with position } :=
  { h with arena := h.arena, position := rfl }

/-- Both runs do the same deed, and the limited one stops if its texts do not fit. -/
theorem Twins.perform (h : Twins v output s t) (plan : Except Halt Deed) :
    (∃ output', Twins v output' (s.perform v.out plan).1 (t.perform v.cut plan).1 ∧
      (t.perform v.cut plan).2 = (s.perform v.out plan).2) ∨
    ∃ output' deed, plan = .ok deed ∧ deed.texts ≠ [] ∧
      v.out.Accepts v.start (s.perform v.out plan).1.sink ∧
      v.bytes (s.perform v.out plan).1.sink = v.bytes v.start ++ output' ∧
      v.room < output'.size ∧ (t.perform v.cut plan).1.arena = deed.arena ∧
      (t.perform v.cut plan).2 = some (s.failure (.output v.message)) ∧
      v.kept (t.perform v.cut plan).1.sink = v.kept v.origin ++ output'.extract 0 v.room := by
  cases plan with
  | error halt => exact .inl ⟨output, h, rfl⟩
  | ok deed =>
    obtain ⟨harena, hposition, -⟩ := State.writeAll_spec v.out { s with arena := deed.arena }
      deed.texts
    obtain ⟨harena', hposition', -⟩ := State.writeAll_spec v.cut { t with arena := deed.arena }
      deed.texts
    obtain ⟨hnone, haccepts, hbytes⟩ := State.writeAll_of_lossless
      (s := { s with arena := deed.arena }) v.lossless h.accepts deed.texts
    rw [h.bytes, ByteArray.append_assoc] at hbytes
    obtain ⟨hroom, hnone', haccepts', hkept⟩ | ⟨hroom, hhalt, hkept⟩ := State.writeAll_of_limited
      (t := { t with arena := deed.arena }) h.accepts' h.kept h.fits deed.texts
    · left
      refine ⟨output ++ encodeAll deed.texts, ⟨?_, ?_, haccepts, hbytes, haccepts', hkept, hroom⟩,
        hnone'.trans hnone.symm⟩
      · exact harena'.trans harena.symm
      · exact hposition'.trans (h.position.trans hposition.symm)
    · right
      refine ⟨output ++ encodeAll deed.texts, deed, rfl, ?_, haccepts, hbytes, hroom, harena', ?_,
        hkept⟩
      · intro htexts
        rw [htexts, encodeAll, List.foldr_nil, ByteArray.append_empty] at hroom
        exact Nat.lt_irrefl _ (Nat.lt_of_lt_of_le hroom h.fits)
      · rw [State.perform, hhalt, State.failure, State.failure, h.position]

/-- A leaf that writes nothing keeps the runs side by side. -/
theorem Statement.truncates_silent {statement : Statement} (h : Twins v output s t)
    (hleaf : statement.leaf? = some position)
    (hsilent : ∀ deed, statement.deed s.arena table = .ok deed → deed.texts = []) :
    Truncates v [] (statement.run v.out table s) (statement.run v.cut table t) := by
  have hplan : statement.deed t.arena table = statement.deed s.arena table := by rw [h.arena]
  rw [run_leaf hleaf, run_leaf hleaf, hplan]
  obtain ⟨output', htwins, hhalt⟩ | ⟨-, deed, hdeed, htexts, -⟩ :=
    (h.begin position).perform (statement.deed s.arena table)
  · exact .continued ⟨htwins, rfl, hhalt, rfl⟩
  · exact absurd (hsilent deed hdeed) htexts

/-- What a print statement writes counts for the room. -/
theorem Statement.truncates_print (h : Twins v output s t) (newline : Bool)
    (payload : Option Expr) :
    Truncates v ((Statement.print position newline payload).prints v.out table s)
      ((Statement.print position newline payload).run v.out table s)
      ((Statement.print position newline payload).run v.cut table t) := by
  let m : Moment σ :=
    { state := { s with position }, errors := [], table, position, newline, payload }
  let statement := Statement.print position newline payload
  have hprints : statement.prints v.out table s = [m] := by simp only [statement, prints, m]
  have hexceeds : v.exceeds m = decide ((v.bytes v.start).size + v.room <
      (v.bytes (statement.run v.out table s).state.sink).size) := by
    simp only [statement, run]
    rfl
  have hleaf : statement.leaf? = some position := rfl
  have hplan : statement.deed t.arena table = statement.deed s.arena table := by rw [h.arena]
  rw [run_leaf hleaf] at hexceeds
  rw [hprints, run_leaf hleaf, run_leaf hleaf, hplan]
  obtain ⟨output', htwins, hhalt⟩ | ⟨output', deed, hdeed, -, haccepts, hbytes, hroom, harena,
    hhalt, hkept⟩ := (h.begin position).perform (statement.deed s.arena table)
  · rw [htwins.bytes, ByteArray.size_append] at hexceeds
    have hfits := htwins.fits
    refine .continued ⟨htwins, rfl, hhalt, ?_⟩
    rw [List.find?_singleton, hexceeds, decide_eq_false (by omega)]
    rfl
  · rw [hbytes, ByteArray.size_append] at hexceeds
    have hfind : [m].find? v.exceeds = some m := by
      rw [List.find?_singleton, hexceeds, decide_eq_true (by omega)]
      rfl
    exact .cutOff ⟨haccepts, hbytes, hroom, hfind, List.nil_prefix,
      harena.trans (arena_of_deed_print hdeed), rfl, hhalt, hkept⟩

theorem Truncates.enclosed {prints : List (Moment σ)} {whole : Effect σ} {part : Effect τ}
    (h : Truncates v prints whole part) (position : Position) :
    Truncates v prints (whole.enclosed position) (part.enclosed position) := by
  cases h with
  | continued h => exact .continued ⟨h.twins, h.errors, h.halt, h.prints⟩
  | cutOff h =>
    exact .cutOff ⟨h.accepts, h.bytes, h.beyond, h.prints, h.noted, h.arena, h.errors, h.halt,
      h.kept⟩

/-- A block and the root of a program pass on what happens to their statements. -/
theorem Statement.truncates_inside {body : List Statement} (h : Twins v output s t)
    (hbody : Truncates v (printsAll v.out table s body) (runAll v.out table s body)
      (runAll v.cut table t body)) :
    Truncates v (if s.arena.contains table then printsAll v.out table s body else [])
      (inside position table s fun s => runAll v.out table s body)
      (inside position table t fun t => runAll v.cut table t body) := by
  cases hcontains : s.arena.contains table with
  | true =>
    rw [inside_of_contains hcontains, inside_of_contains (by rw [h.arena, hcontains]), if_pos rfl]
    exact hbody.enclosed position
  | false =>
    rw [inside_of_missing hcontains, inside_of_missing (by rw [h.arena, hcontains]),
      if_neg Bool.false_ne_true]
    exact .continued ⟨h, rfl, rfl, rfl⟩

theorem SinkPair.find?_map_after (v : SinkPair σ τ) (errors : List RuntimeError)
    (moments : List (Moment σ)) :
    (moments.map (Moment.after errors)).find? v.exceeds =
      (moments.find? v.exceeds).map (Moment.after errors) := by
  rw [List.find?_map]
  rfl

section cons

variable {statement : Statement} {rest : List Statement}

/-- Behind a statement that ended the limited run the other run may go on. -/
theorem CutOff.cons {m : Moment σ} (rest : List Statement)
    (h : CutOff v (statement.prints v.out table s) output m (statement.run v.out table s)
      (statement.run v.cut table t)) :
    ∃ output', CutOff v (Statement.printsAll v.out table s (statement :: rest)) output' m
      (Statement.runAll v.out table s (statement :: rest))
      (Statement.runAll v.cut table t (statement :: rest)) := by
  have hfind : (Statement.printsAll v.out table s (statement :: rest)).find? v.exceeds =
      some m := by
    rw [Statement.printsAll, List.find?_append, h.prints]
    rfl
  have hpart : Statement.runAll v.cut table t (statement :: rest) = statement.run v.cut table t :=
    Statement.runAll_of_stops (by rw [h.halt]; rfl)
  rw [hpart]
  cases hstops : Halt.stops (statement.run v.out table s).halt with
  | true =>
    rw [Statement.runAll_of_stops hstops]
    exact ⟨output, { h with prints := hfind }⟩
  | false =>
    have hlater : v.out.Appends v.bytes v.start _
        (Statement.runAll v.out table (statement.run v.out table s).state rest).state.sink :=
      Statement.appends_runAll v.lossless rest h.accepts
    obtain ⟨more, hmore⟩ := hlater.bytes
    rw [h.bytes, ByteArray.append_assoc] at hmore
    have hbeyond := h.beyond
    have hnoted : m.errors <+: (Statement.runAll v.out table s (statement :: rest)).noted := by
      rw [Statement.noted_runAll_of_goes hstops]
      exact h.noted.trans (List.prefix_append ..)
    rw [Statement.runAll_of_goes hstops] at hnoted ⊢
    refine ⟨output ++ more, hlater.accepts, hmore, ?_, hfind, hnoted, h.arena, h.errors, h.halt, ?_⟩
    · rw [ByteArray.size_append]
      omega
    · rw [h.kept, extract_append_of_le_size (Nat.le_of_lt hbeyond)]

/-- Behind a statement whose output fitted both runs go on or both end. -/
theorem Continued.cons
    (h : Continued v (statement.prints v.out table s) output (statement.run v.out table s)
      (statement.run v.cut table t))
    (hlater : Truncates v
      (Statement.printsAll v.out table (statement.run v.out table s).state rest)
      (Statement.runAll v.out table (statement.run v.out table s).state rest)
      (Statement.runAll v.cut table (statement.run v.cut table t).state rest)) :
    Truncates v (Statement.printsAll v.out table s (statement :: rest))
      (Statement.runAll v.out table s (statement :: rest))
      (Statement.runAll v.cut table t (statement :: rest)) := by
  have hnoted : (statement.run v.cut table t).noted = (statement.run v.out table s).noted := by
    rw [Effect.noted, Effect.noted, h.errors, h.halt]
  cases hstops : Halt.stops (statement.run v.out table s).halt with
  | true =>
    rw [Statement.runAll_of_stops hstops, Statement.runAll_of_stops (by rw [h.halt, hstops])]
    refine .continued { h with prints := ?_ }
    rw [Statement.printsAll, if_pos hstops, List.append_nil, h.prints]
  | false =>
    have hprints : (Statement.printsAll v.out table s (statement :: rest)).find? v.exceeds =
        ((Statement.printsAll v.out table (statement.run v.out table s).state rest).find?
          v.exceeds).map (Moment.after (statement.run v.out table s).noted) := by
      rw [Statement.printsAll, if_neg (by simp [hstops]), List.find?_append, h.prints,
        Option.none_or, v.find?_map_after]
    have hpart : Statement.runAll v.cut table t (statement :: rest) = _ :=
      Statement.runAll_of_goes (by rw [h.halt, hstops])
    cases hlater with
    | continued hlater =>
      rw [Statement.runAll_of_goes hstops, hpart]
      refine .continued ⟨hlater.twins, ?_, hlater.halt, ?_⟩
      · simp only [hnoted, hlater.errors]
      · rw [hprints, hlater.prints, Option.map_none]
    | @cutOff _ m hlater =>
      rw [hlater.prints, Option.map_some] at hprints
      have hbefore : (m.after (statement.run v.out table s).noted).errors <+:
          (Statement.runAll v.out table s (statement :: rest)).noted := by
        rw [Statement.noted_runAll_of_goes hstops]
        exact (List.prefix_append_right_inj _).mpr hlater.noted
      rw [Statement.runAll_of_goes hstops] at hbefore ⊢
      rw [hpart]
      refine .cutOff ⟨hlater.accepts, hlater.bytes, hlater.beyond, hprints, hbefore, hlater.arena,
        ?_, hlater.halt, hlater.kept⟩
      simp only [hnoted, hlater.errors, Moment.after]

end cons

mutual

/-- A statement keeps the two runs side by side or ends the limited one. -/
theorem Statement.truncates_run : ∀ (statement : Statement) {s : State σ} {t : State τ}
    {table : TableId} {output : ByteArray}, Twins v output s t →
    Truncates v (statement.prints v.out table s) (statement.run v.out table s)
      (statement.run v.cut table t)
  | .null, s, t, table, output, h => by
    simp only [prints, run]
    exact .continued ⟨h, rfl, rfl, rfl⟩
  | .declare .., s, t, table, output, h => by
    simp only [prints]
    exact Statement.truncates_silent h rfl fun _ => Deed.texts_of_map
  | .assign .., s, t, table, output, h => by
    simp only [prints]
    exact Statement.truncates_silent h rfl fun _ => Deed.texts_of_map
  | .print .., s, t, table, output, h => Statement.truncates_print h _ _
  | .block position inner body, s, t, table, output, h => by
    have hbegun := h.begin position
    have hinside : Truncates v _
        (inside position inner { s with position } fun s => runAll v.out inner s body)
        (inside position inner { t with position } fun t => runAll v.cut inner t body) :=
      Statement.truncates_inside hbegun (Statement.truncates_runAll body hbegun)
    rw [prints, run_block_eq, run_block_eq]
    cases hinside with
    | continued h => exact .continued ⟨h.twins, h.errors, h.halt, h.prints⟩
    | cutOff h =>
      exact .cutOff ⟨h.accepts, h.bytes, h.beyond, h.prints, h.noted, h.arena, h.errors, h.halt,
        h.kept⟩

theorem Statement.truncates_runAll : ∀ (body : List Statement) {s : State σ} {t : State τ}
    {table : TableId} {output : ByteArray}, Twins v output s t →
    Truncates v (printsAll v.out table s body) (runAll v.out table s body)
      (runAll v.cut table t body)
  | [], s, t, table, output, h => by
    rw [printsAll, runAll, runAll]
    exact .continued ⟨h, rfl, rfl, rfl⟩
  | statement :: rest, s, t, table, output, h => by
    have hfirst : Truncates v (statement.prints v.out table s) (statement.run v.out table s)
        (statement.run v.cut table t) := Statement.truncates_run statement h
    cases hfirst with
    | cutOff h =>
      obtain ⟨_, hcut⟩ := h.cons rest
      exact .cutOff hcut
    | continued h => exact h.cons (Statement.truncates_runAll rest h.twins)

end

end statements

/-! ## Programs -/

namespace Executor

variable {σ τ : Type} {v : SinkPair σ τ}

theorem truncates_runStatements (v : SinkPair σ τ) (x : Executor) (p : Program) :
    Truncates v (p.prints v.out x v.start) (runStatements v.out (p.start x v.start) p.root)
      (runStatements v.cut (p.start x v.origin) p.root) := by
  have htwins : Twins v ByteArray.empty (p.start x v.start) (p.start x v.origin) :=
    ⟨rfl, rfl, .idle, ByteArray.append_empty.symm, .idle, ByteArray.append_empty.symm,
      Nat.zero_le _⟩
  exact Statement.truncates_inside htwins (Statement.truncates_runAll p.root.body htwins)

/-- Neither sink refuses to be flushed. -/
theorem flush_of_twins {output : ByteArray} {s : State σ} {t : State τ} (h : Twins v output s t) :
    Twins v output (s.flush v.out).1 (t.flush v.cut).1 ∧ (s.flush v.out).2 = none ∧
      (t.flush v.cut).2 = none := by
  obtain ⟨hanswer, hbytes⟩ := v.lossless.flush h.accepts
  obtain ⟨hanswer', hkept⟩ := v.limited.flush h.accepts'
  obtain ⟨hflush, haccepts⟩ := State.flush_of_accepted hanswer
  obtain ⟨hflush', haccepts'⟩ := State.flush_of_accepted hanswer'
  rw [hflush, hflush']
  exact ⟨⟨h.arena, h.position, h.accepts.trans haccepts, hbytes.trans h.bytes,
    h.accepts'.trans haccepts', hkept.trans h.kept, h.fits⟩, rfl, rfl⟩

theorem truncates_runRoot (v : SinkPair σ τ) (x : Executor) (p : Program) :
    Truncates v (p.prints v.out x v.start) (runRoot v.out (p.start x v.start) p.root)
      (runRoot v.cut (p.start x v.origin) p.root) := by
  cases truncates_runStatements v x p with
  | continued h =>
    cases hend : (runStatements v.out (p.start x v.start) p.root).halt with
    | some halt =>
      rw [runRoot_of_halt hend, runRoot_of_halt (h.halt.trans hend)]
      exact .continued h
    | none =>
      obtain ⟨htwins, hnone, hnone'⟩ := flush_of_twins h.twins
      rw [runRoot_of_none hend, runRoot_of_none (h.halt.trans hend)]
      exact .continued ⟨htwins, h.errors, hnone'.trans hnone.symm, h.prints⟩
  | cutOff h =>
    rw [runRoot_of_halt h.halt]
    cases hend : (runStatements v.out (p.start x v.start) p.root).halt with
    | some halt =>
      rw [runRoot_of_halt hend]
      exact .cutOff h
    | none =>
      have hnoted := h.noted
      rw [Effect.noted, hend] at hnoted
      obtain ⟨hanswer, hbytes⟩ := v.lossless.flush h.accepts
      obtain ⟨hflush, haccepts⟩ := State.flush_of_accepted hanswer
      rw [runRoot_of_none hend, hflush]
      exact .cutOff { h with
        accepts := h.accepts.trans haccepts
        bytes := hbytes.trans h.bytes
        noted := hnoted }

section execute

variable {x : Executor} {p : Program} {output : ByteArray}

/-- A run whose output fits leaves the same as the unlimited run. -/
theorem execute_of_continued
    (h : Continued v (p.prints v.out x v.start) output (runRoot v.out (p.start x v.start) p.root)
      (runRoot v.cut (p.start x v.origin) p.root)) :
    let whole := x.execute v.out p v.start
    let part := x.execute v.cut p v.origin
    v.bytes whole.sink = v.bytes v.start ++ output ∧
      v.kept part.sink = v.kept v.origin ++ output ∧ part.executor = whole.executor ∧
      part.program = whole.program ∧ part.fault = whole.fault := by
  intro whole part
  obtain ⟨hexecutor, hprogram, hsink, hfault⟩ := execute_eq v.out x p v.start
  obtain ⟨hexecutor', hprogram', hsink', hfault'⟩ := execute_eq v.cut x p v.origin
  refine ⟨?_, ?_, ?_, ?_, ?_⟩
  · rw [hsink, h.twins.bytes]
  · rw [hsink', h.twins.kept]
  · rw [hexecutor, hexecutor', Effect.noted, Effect.noted, h.errors, h.halt, h.twins.position]
  · rw [hprogram, hprogram', h.twins.arena]
  · rw [hfault, hfault', h.halt]

theorem execute_of_cutOff {m : Moment σ}
    (h : CutOff v (p.prints v.out x v.start) output m (runRoot v.out (p.start x v.start) p.root)
      (runRoot v.cut (p.start x v.origin) p.root)) :
    let whole := x.execute v.out p v.start
    let part := x.execute v.cut p v.origin
    v.bytes whole.sink = v.bytes v.start ++ output ∧
      v.kept part.sink = v.kept v.origin ++ output.extract 0 v.room ∧ part.fault = none ∧
      part.executor.errors =
        x.errors ++ m.errors ++ [{ position := m.position, cause := .output v.message }] ∧
      x.errors ++ m.errors <+: whole.executor.errors ∧ part.program.arena = m.state.arena := by
  intro whole part
  obtain ⟨hexecutor, hprogram, hsink, hfault⟩ := execute_eq v.out x p v.start
  obtain ⟨hexecutor', hprogram', hsink', hfault'⟩ := execute_eq v.cut x p v.origin
  refine ⟨?_, ?_, ?_, ?_, ?_, ?_⟩
  · rw [hsink, h.bytes]
  · rw [hsink', h.kept]
  · rw [hfault', h.halt]
    rfl
  · rw [hexecutor', Effect.noted, h.errors, h.halt, Halt.errors, List.append_assoc]
  · rw [hexecutor]
    exact (List.prefix_append_right_inj _).mpr h.noted
  · rw [hprogram', h.arena]

end execute

/-- If all output of a program fits into a limited sink, the run is the same as that into
a sink that takes everything. Otherwise the limited sink has the first bytes of the output,
as many as fit. The run ended at the first print that did not fit: its errors are those
noted before, which the other run noted too, and then an output error at that print, and
its arena is that of the other run in front of the print. -/
theorem execute_truncated {out : Sink σ} {bytes : σ → ByteArray} {sink : σ} {cut : Sink τ}
    {kept : τ → ByteArray} {origin : τ} {room : Nat} {message : String}
    (hlossless : out.Lossless bytes sink) (hlimited : cut.Limited kept room message origin)
    (x : Executor) (p : Program) :
    let whole := x.execute out p sink
    let part := x.execute cut p origin
    ∃ output, bytes whole.sink = bytes sink ++ output ∧
      (output.size ≤ room →
        kept part.sink = kept origin ++ output ∧ part.executor = whole.executor ∧
        part.program = whole.program ∧ part.fault = whole.fault) ∧
      (room < output.size →
        kept part.sink = kept origin ++ output.extract 0 room ∧ part.fault = none ∧
        ∃ m, (p.prints out x sink).find? (Moment.exceeds out bytes sink room) = some m ∧
          part.executor.errors =
            x.errors ++ m.errors ++ [{ position := m.position, cause := .output message }] ∧
          x.errors ++ m.errors <+: whole.executor.errors ∧
          part.program.arena = m.state.arena) := by
  intro whole part
  let v : SinkPair σ τ :=
    { out, bytes, start := sink, lossless := hlossless, cut, kept, origin, room, message,
      limited := hlimited }
  cases truncates_runRoot v x p with
  | @continued output h =>
    obtain ⟨hbytes, hsame⟩ := execute_of_continued h
    have hfits : output.size ≤ room := h.twins.fits
    exact ⟨output, hbytes, fun _ => hsame, fun hroom => absurd hfits (Nat.not_le.mpr hroom)⟩
  | @cutOff output m h =>
    obtain ⟨hbytes, hkept, hfault, herrors, hbefore, harena⟩ := execute_of_cutOff h
    have hbeyond : room < output.size := h.beyond
    exact ⟨output, hbytes, fun hroom => absurd hroom (Nat.not_le.mpr hbeyond),
      fun _ => ⟨hkept, hfault, m, h.prints, herrors, hbefore, harena⟩⟩

/-- Of three printed bytes there is room for two. The second print is cut, in a block, behind an
overflow, and before the last assignment. -/
theorem execute_truncated_block :
    let program := (Program.parse ["var x number = 9223372036854775807", "print 1", "\x7b",
      "x += 1", "x = 23", "print x", "x = 4", "\x7d"]).program
    let tiny : Buffer :=
      { bytes := ByteArray.empty, limit := some 2, fullMessage := "full", flushMessage := none }
    let whole := fresh.execute Buffer.sink program Buffer.unlimited
    let part := fresh.execute Buffer.sink program tiny
    whole.sink.bytes = "123".toUTF8 ∧ part.sink.bytes = "12".toUTF8 ∧ part.fault = none ∧
      ∃ m, (program.prints Buffer.sink fresh Buffer.unlimited).find?
          (Moment.exceeds Buffer.sink Buffer.bytes Buffer.unlimited 2) = some m ∧
        part.executor.errors =
          m.errors ++ [{ position := m.position, cause := .output "full" }] ∧
        m.errors <+: whole.executor.errors ∧ part.program.arena = m.state.arena := by
  intro program tiny whole part
  have hlimit : tiny.limit = some 2 := rfl
  have hlimited : Buffer.sink.Limited Buffer.bytes 2 "full" tiny := Buffer.limited hlimit rfl
  obtain ⟨output, hbytes, -, hcut⟩ :=
    execute_truncated Buffer.lossless_unlimited hlimited fresh program
  have hwhole : whole.sink.bytes = "123".toUTF8 := by decide +kernel
  have houtput : output = "123".toUTF8 := by
    rw [← hwhole, hbytes]
    exact ByteArray.empty_append.symm
  obtain ⟨hkept, hfault, m, hfound, herrors, hbefore, harena⟩ := hcut (by rw [houtput]; decide)
  refine ⟨hwhole, ?_, hfault, m, hfound, herrors, hbefore, harena⟩
  rw [hkept, houtput]
  decide +kernel

end Executor

end LineScript
