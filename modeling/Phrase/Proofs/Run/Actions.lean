import Phrase.Action
import Phrase.Proofs.Tree.Arena
import Phrase.Proofs.Tree.Lossless

/-!
# The actions agree

The bounds of productions in the events of a run are brackets: the root is around all of them,
and each is closed once, innermost first.  So the handler that builds a tree is never out of
step with the events (`TreeSketch.foldlM_handler`), and validating, parsing for a value and
parsing for a tree say the same of a run (`Grammar.Runs.actions_agree`).
-/

namespace Phrase

/-! ## Brackets -/

/-- The names of the open productions behind an event, innermost first.  Only the innermost
one can be closed. -/
def Event.nest (stack : List String) : Event → Option (List String)
  | .start name _ => some (name :: stack)
  | .finish name _ | .cancel name _ =>
    match stack with
    | top :: rest => if top = name then some rest else none
    | [] => none
  | .token _ _ | .error _ => some stack

/-- The open productions behind some events. -/
def nesting (events : List Event) : Option (List String) := events.foldlM Event.nest []

theorem Event.nest_close (name : String) (finished : Bool) (position : Nat)
    (stack : List String) : Event.nest (name :: stack) (.close name finished position) = some stack := by
  cases finished <;> exact if_pos rfl

theorem Layout.foldlM_nest {p q : Nat} {es : List Event} (h : Layout p q es)
    (stack : List String) : es.foldlM Event.nest stack = some stack := by
  induction h generalizing stack with
  | nil => rfl
  | token _ _ _ ih => exact ih stack
  | error _ _ ih => exact ih stack
  | @production p q r inner es name finished _ _ ihinner ih =>
    show (inner ++ _).foldlM Event.nest (name :: stack) = _
    rw [List.foldlM_append, ihinner]
    show (_ :: es).foldlM Event.nest (name :: stack) = _
    rw [List.foldlM_cons, Event.nest_close]
    exact ih stack

/-! ## The tree handler -/

/-- What is asked of the tree handler inside of the productions in `stack`: it has counted
them, and it holds a marker for each but the root, which leads to a node of the same name. -/
structure TreeHandler.Aligned (h : TreeHandler) (stack : List String) : Prop where
  depth : h.depth = stack.length
  markers : h.markers.length = stack.length - 1
  builder : stack ≠ [] → ∃ b, h.builder? = some b ∧
    (h.markers.map Marker.node ++ [0]).head? = some b.current ∧
    (h.markers.map Marker.node ++ [0]).map (fun id => b.nodes[id]?.map NodeData.kind) =
      stack.map fun name => some (.production name)

namespace TreeSketch

variable (s : TreeSketch) {log : ErrorLog} {stack : List String}

/-- The names of the open productions, innermost first. -/
def openNames : List String :=
  match s.builder? with
  | some b => (b.current :: b.outer).map Frame.name
  | none => []

/-- The tree handler that knows as much. -/
def handler (log : ErrorLog) : TreeHandler where
  log
  builder? := s.builder?.map TreeBuilder.arena
  markers := (s.builder?.map TreeBuilder.markers).getD []
  tree := s.tree.arena
  depth := s.openNames.length

theorem handler_aligned : (s.handler log).Aligned s.openNames := by
  obtain ⟨builder?, tree⟩ := s
  cases builder? with
  | none => exact ⟨rfl, rfl, fun h => absurd rfl h⟩
  | some b =>
    obtain ⟨f, fs⟩ := b
    refine ⟨rfl, ?_, fun _ => ⟨_, rfl, ?_, ?_⟩⟩
    · show (Frame.markers (f :: fs)).length = (fs.map Frame.name).length
      induction fs generalizing f with
      | nil => rfl
      | cons g fs ih => exact congrArg Nat.succ (ih g)
    · cases fs with
      | nil => rfl
      | cons g fs => rfl
    · show _ = ((f :: fs).map Frame.name).map _
      rw [List.map_map]
      exact TreeBuilder.kinds_markers ⟨f, fs⟩

variable {s}

/-- What the innermost open production has inside does not bear on what the handler keeps
besides its arena. -/
theorem handler_current (f g : Frame) (fs : List Frame) (tree : SyntaxTree) :
    handler ⟨some ⟨g, fs⟩, tree⟩ log =
      { handler ⟨some ⟨f, fs⟩, tree⟩ log with builder? := some (TreeBuilder.arena ⟨g, fs⟩) } := by
  cases fs <;> rfl

/-- Inside of the root, the marker that comes back is the one of the innermost production. -/
theorem leave_handler {f g : Frame} (g' : Frame) {fs : List Frame} {tree : SyntaxTree}
    {root : TreeHandler → Except Fault TreeHandler}
    {inner : ArenaBuilder → Marker → Except Fault ArenaBuilder}
    (hinner : inner (TreeBuilder.arena ⟨f, g :: fs⟩) ⟨Frame.count (g :: fs), Frame.count fs⟩ =
      .ok (TreeBuilder.arena ⟨g', fs⟩)) :
    (handler ⟨some ⟨f, g :: fs⟩, tree⟩ log).leave root inner =
      .ok (handler ⟨some ⟨g', fs⟩, tree⟩ log) := by
  rw [handler_current g g']
  show inner _ _ >>= _ = _
  rw [hinner]
  rfl

/-- The innermost production is the one that is closed. -/
theorem nest_close_cases {name : String} {f : Frame} {fs : List Frame}
    (h : (if f.name = name then some (fs.map Frame.name) else none) = some stack) :
    fs.map Frame.name = stack := by
  split at h
  · exact Option.some.inj h
  · cases h

/-- Behind an event that keeps the brackets in order, the handler still knows as much as the
sketch, and so do the brackets. -/
theorem on_handler (log : ErrorLog) {e : Event} (h : e.nest s.openNames = some stack) :
    (s.handler log).on e = .ok ((s.on e).handler (log.on e)) ∧ (s.on e).openNames = stack := by
  obtain ⟨builder?, tree⟩ := s
  cases e with
  | start name position =>
    cases h
    cases builder? with
    | none => exact ⟨rfl, rfl⟩
    | some b =>
      refine ⟨?_, rfl⟩
      show b.arena.start name position >>= _ = _
      rw [TreeBuilder.arena_start]
      rfl
  | token kind range =>
    cases h
    cases builder? with
    | none => exact ⟨rfl, rfl⟩
    | some b =>
      obtain ⟨f, fs⟩ := b
      refine ⟨?_, rfl⟩
      show (TreeBuilder.arena ⟨f, fs⟩).token kind range >>= _ = _
      rw [TreeBuilder.arena_token]
      exact congrArg _ (handler_current f (f.push (.token kind range)) fs tree).symm
  | error e =>
    cases h
    exact ⟨rfl, rfl⟩
  | finish name position =>
    cases builder? with
    | none => cases h
    | some b =>
      obtain ⟨f, fs⟩ := b
      obtain rfl := nest_close_cases h
      cases fs with
      | nil =>
        refine ⟨?_, rfl⟩
        show (TreeBuilder.arena ⟨f, []⟩).tree >>= _ = _
        rw [TreeBuilder.arena_tree]
        rfl
      | cons g fs =>
        refine ⟨?_, rfl⟩
        rw [TreeHandler.on]
        exact leave_handler (g.push f.toNode) TreeBuilder.arena_finish
  | cancel name position =>
    cases builder? with
    | none => cases h
    | some b =>
      obtain ⟨f, fs⟩ := b
      obtain rfl := nest_close_cases h
      cases fs with
      | nil => exact ⟨rfl, rfl⟩
      | cons g fs =>
        have hstart : (TreeBuilder.arena ⟨f, g :: fs⟩).startOf
            ⟨Frame.count (g :: fs), Frame.count fs⟩ = .ok f.start :=
          TreeBuilder.arena_startOf ⟨f, g :: fs⟩ (Frame.count fs)
        by_cases hlt : f.start < position
        · have hon : TreeSketch.on ⟨some ⟨f, g :: fs⟩, tree⟩ (.cancel name position) =
              ⟨some ⟨g.push (.token .error ⟨f.start, position⟩), fs⟩, tree⟩ := by
            show (⟨some (if f.start < position then _ else _), tree⟩ : TreeSketch) = _
            rw [if_pos hlt]
            rfl
          refine ⟨?_, by rw [hon]; rfl⟩
          rw [hon, TreeHandler.on]
          refine leave_handler _ ?_
          simp only [hstart, TreeBuilder.arena_cancel, bind, Except.bind, if_pos hlt]
          exact TreeBuilder.arena_token ⟨g, fs⟩ .error ⟨f.start, position⟩
        · have hon : TreeSketch.on ⟨some ⟨f, g :: fs⟩, tree⟩ (.cancel name position) =
              ⟨some ⟨g, fs⟩, tree⟩ := by
            show (⟨some (if f.start < position then _ else _), tree⟩ : TreeSketch) = _
            rw [if_neg hlt]
            rfl
          refine ⟨?_, by rw [hon]; rfl⟩
          rw [hon, TreeHandler.on]
          refine leave_handler _ ?_
          simp only [hstart, TreeBuilder.arena_cancel, bind, Except.bind, if_neg hlt]
          rfl

/-- As long as brackets are in order the handler is not at fault, and builds the arena of the
tree. -/
theorem foldlM_handler (s : TreeSketch) (log : ErrorLog) {es : List Event}
    (h : es.foldlM Event.nest s.openNames = some stack) :
    es.foldlM TreeHandler.on (s.handler log) =
        .ok ((es.foldl TreeSketch.on s).handler (es.foldl ErrorLog.on log)) ∧
      (es.foldl TreeSketch.on s).openNames = stack := by
  induction es generalizing s log with
  | nil => exact ⟨rfl, Option.some.inj h⟩
  | cons e es ih =>
    rw [List.foldlM_cons] at h
    obtain ⟨stack', hstack', h⟩ := Option.bind_eq_some_iff.1 h
    obtain ⟨hon, hnames⟩ := on_handler log hstack'
    rw [← hnames] at h
    rw [List.foldlM_cons, hon]
    exact ih _ _ h

end TreeSketch

/-! ## The actions -/

theorem ErrorLog.errors_foldl (es : List Event) (log : ErrorLog) :
    (es.foldl ErrorLog.on log).errors = log.errors ++ errorsOf es := by
  induction es generalizing log with
  | nil => exact (List.append_nil _).symm
  | cons e es ih =>
    rw [List.foldl_cons, ih]
    cases e with
    | error e => exact List.append_assoc _ _ _
    | start | finish | cancel | token => rfl

theorem Status.of_eq_fatalError_iff (matched : Bool) (errors : List ParseError) :
    Status.of matched errors = .fatalError ↔ matched = false := by
  cases matched with
  | false => exact ⟨fun _ => rfl, fun _ => rfl⟩
  | true => cases errors <;> exact ⟨fun h => (by cases h), fun h => (by cases h)⟩

/-- What is known of the actions on a run whose root has this name. -/
structure Outcome.ActionsAgree (o : Outcome Outputs) (name : String) : Prop where
  /-- The bounds of the root are around all others, and all are in order. -/
  brackets : ∃ inner finished, nesting inner = some [] ∧ nesting o.events = some [] ∧
    o.events = .start name 0 :: (inner ++ [.close name finished o.position])
  /-- The tree handler is in step with them behind every event. -/
  aligned : ∀ es, es <+: o.events → ∃ h stack,
    es.foldlM TreeHandler.on .new = .ok h ∧ nesting es = some stack ∧ h.Aligned stack
  /-- Validating hears the errors of the run, in order. -/
  validate : o.validate = o.report
  parse : o.parse.1 = o.validate
  parseAsTree : ∀ before, o.parseAsTree before = .ok (o.validate, o.tree.arena)
  /-- There is a value unless the run is fatal. -/
  value : o.parse.2.isSome ↔ o.validate.status ≠ .fatalError
  /-- The root stands in front of all other nodes unless the run is fatal. -/
  root : (∃ n, o.tree.arena.head? = some n ∧ n.kind = .production name) ↔
    o.validate.status ≠ .fatalError
  /-- A fatal run leaves no node. -/
  fatal : o.validate.status = .fatalError → o.tree.arena = []

namespace Outcome.Rooted

variable {o : Outcome Outputs} {name : String} {inner : List Event}

theorem nesting_events (h : o.Rooted name inner) : nesting o.events = some [] := by
  rw [h.events]
  show (inner ++ _).foldlM Event.nest [name] = some []
  rw [List.foldlM_append, h.layout.foldlM_nest]
  show [_].foldlM Event.nest [name] = some []
  rw [List.foldlM_cons, Event.nest_close]
  rfl

theorem isSome_value (h : o.Rooted name inner) : o.value.isSome = o.result.isSome := by
  rw [Outcome.value]
  cases hresult : o.result with
  | none => rfl
  | some vs =>
    obtain ⟨v, rfl⟩ := h.outputs vs hresult
    rfl

theorem agree (h : o.Rooted name inner) : o.ActionsAgree name := by
  have hnew : TreeHandler.new = TreeSketch.empty.handler .empty := rfl
  have hstatus : o.validate.status = .fatalError ↔ o.result.isSome = false :=
    Status.of_eq_fatalError_iff _ _
  have hmatched : o.validate.status ≠ .fatalError ↔ o.result.isSome = true := by
    rw [Ne, hstatus, Bool.not_eq_false]
  constructor
  case brackets => exact ⟨inner, _, h.layout.foldlM_nest [], h.nesting_events, h.events⟩
  case aligned =>
    rintro es ⟨rest, hrest⟩
    have hnest := h.nesting_events
    rw [← hrest, nesting, List.foldlM_append] at hnest
    obtain ⟨stack, hstack, -⟩ := Option.bind_eq_some_iff.1 hnest
    obtain ⟨hfold, hnames⟩ := TreeSketch.foldlM_handler .empty .empty hstack
    refine ⟨_, stack, hfold, hstack, ?_⟩
    rw [← hnames]
    exact TreeSketch.handler_aligned _
  case validate =>
    have herrors : (o.events.foldl ErrorLog.on .empty).errors = errorsOf o.events :=
      ErrorLog.errors_foldl o.events .empty
    rw [Outcome.validate, Outcome.report, herrors]
  case parse =>
    rw [Outcome.parse, h.isSome_value]
    rfl
  case parseAsTree =>
    intro before
    obtain ⟨hfold, -⟩ :=
      TreeSketch.foldlM_handler .empty .empty h.nesting_events
    unfold Outcome.parseAsTree
    rw [hnew, hfold]
    rfl
  case value =>
    rw [hmatched, ← h.isSome_value]
    rfl
  case root =>
    rw [hmatched]
    constructor
    · rintro ⟨n, hn, -⟩
      cases hresult : o.result with
      | some _ => rfl
      | none =>
        rw [h.tree_eq_empty hresult] at hn
        cases hn
    · intro hsome
      obtain ⟨f, htree, hname, -, -⟩ := h.tree_eq hsome
      rw [htree, ← hname]
      exact ⟨_, rfl, rfl⟩
  case fatal =>
    intro hfatal
    have hnone : o.result = none :=
      Option.isNone_iff_eq_none.1 (Option.isSome_eq_false_iff.1 (hstatus.1 hfatal))
    rw [h.tree_eq_empty hnone]
    rfl

end Outcome.Rooted

/-- Parsing for a tree builds the arena of the tree of the events, whatever was built before. -/
theorem Grammar.Runs.parseAsTree_eq {g : Grammar} {root : Nat} {source : Source}
    {options : Options} {o : Outcome Outputs} (h : g.Runs root source options o)
    (before : List NodeData) : o.parseAsTree before = .ok (o.validate, o.tree.arena) := by
  obtain ⟨_, hroot⟩ := h.rooted
  exact hroot.agree.parseAsTree before

/-- On every run that ends the three actions agree. -/
theorem Grammar.Runs.actions_agree {g : Grammar} {root : Nat} {source : Source}
    {options : Options} {o : Outcome Outputs} (h : g.Runs root source options o) :
    o.ActionsAgree (g.production root).name := by
  obtain ⟨inner, hroot⟩ := h.rooted
  exact hroot.agree

/-- A production that would be nested too deep is recovered from without having been started. -/
theorem Grammar.Runs.actions_agree_too_deep :
    let g : Grammar := ⟨#[
      ⟨"root", .seq (.recover (.production 1)) (.token (.charClass .alpha)), .discard, none, false⟩,
      ⟨"letter", .token (.charClass .alpha), .discard, none, false⟩], #[]⟩
    let source : Source := ⟨.utf8, #[0x61], by decide⟩
    ∃ o, g.Runs 0 source ⟨.none, 1⟩ o ∧ o.validate.status = .recoveredError ∧
      o.ActionsAgree "root" := by
  intro g source
  have hrun : ((g.environment source).parse 4 (.production 0)
      (.outer .none 1 .discard)).answers 0 (fun o =>
        o.validate.status == .recoveredError) = true := by decide +kernel
  obtain ⟨o, ho, hcheck⟩ := Parse.exists_of_answers hrun
  have hruns : g.Runs 0 source ⟨.none, 1⟩ o := ⟨4, ho⟩
  exact ⟨o, hruns, beq_iff_eq.1 hcheck, hruns.actions_agree⟩

end Phrase
