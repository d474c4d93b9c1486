import Phrase.Run
import Phrase.Tree.Arena

/-!
# Actions

What is asked of a run decides who listens to its events.  Validating and parsing for a value
only log errors; parsing for a tree builds an arena besides.  The tree handler counts how
deep productions are nested and keeps the markers of all open productions but the root, which
is opened and closed together with the builder.
-/

namespace Phrase

/-! ## Handlers -/

/-- The errors heard so far. -/
structure ErrorLog where
  errors : List ParseError

namespace ErrorLog

/-- Nothing heard yet. -/
def empty : ErrorLog := ⟨[]⟩

/-- Takes notice of errors. -/
def on (log : ErrorLog) : Event → ErrorLog
  | .error e => ⟨log.errors ++ [e]⟩
  | _ => log

end ErrorLog

/-- Builds an arena from events. -/
structure TreeHandler where
  log : ErrorLog
  /-- Present while the root is open. -/
  builder? : Option ArenaBuilder
  /-- The markers of the open productions, innermost first. -/
  markers : List Marker
  /-- The arena of the last root that was finished. -/
  tree : List NodeData
  /-- The number of open productions. -/
  depth : Nat

namespace TreeHandler

/-- Nothing heard yet. -/
def new : TreeHandler := ⟨.empty, none, [], [], 0⟩

/-- Leaves a production: at the root in one way, inside of it with the innermost marker. -/
def leave (h : TreeHandler) (root : TreeHandler → Except Fault TreeHandler)
    (inner : ArenaBuilder → Marker → Except Fault ArenaBuilder) : Except Fault TreeHandler :=
  match h.depth with
  | 0 => .error .depthUnderflow
  | 1 => root { h with depth := 0 }
  | depth + 1 =>
    match h.builder?, h.markers with
    | some b, m :: ms => do
      let b ← inner b m
      return { h with builder? := some b, markers := ms, depth }
    | _, ms => return { h with markers := ms.tail, depth }

/-- Takes notice of an event. -/
def on (h : TreeHandler) : Event → Except Fault TreeHandler
  | .start name position =>
    match h.builder? with
    | some b => do
      let (b, m) ← b.start name position
      return { h with builder? := some b, markers := m :: h.markers, depth := h.depth + 1 }
    | none => return { h with builder? := some (.new name position), depth := h.depth + 1 }
  | .finish _ _ =>
    h.leave
      (fun h => match h.builder? with
        | some b => do return { h with builder? := none, tree := ← b.tree }
        | none => return h)
      fun b m => b.finish m
  | .cancel _ position =>
    h.leave (fun h => return { h with builder? := none, tree := [] })
      fun b m => do
        let start ← b.startOf m
        let b ← b.cancel m
        if start < position then b.token .error ⟨start, position⟩ else return b
  | .token kind range =>
    match h.builder? with
    | some b => do return { h with builder? := some (← b.token kind range) }
    | none => return h
  | .error e => return { h with log := h.log.on (.error e) }

end TreeHandler

/-! ## Actions -/

namespace Outcome

variable (o : Outcome Outputs)

/-- Validating: the errors of the run, and how it ended. -/
def validate : Report :=
  let log := o.events.foldl ErrorLog.on .empty
  ⟨.of o.result.isSome log.errors, log.errors⟩

/-- Parsing: the same and the value. -/
def parse : Report × Option Value :=
  let log := o.events.foldl ErrorLog.on .empty
  (⟨.of o.value.isSome log.errors, log.errors⟩, o.value)

/-- Parsing for a tree: the same as validating, and the caller's tree is replaced. -/
def parseAsTree : StateT (List NodeData) (Except Fault) Report := do
  let h ← (o.events.foldlM TreeHandler.on .new : Except Fault TreeHandler)
  set h.tree
  return ⟨.of o.result.isSome h.log.errors, h.log.errors⟩

end Outcome

end Phrase
