import Phrase.Proofs.Run.Actions
import Phrase.Proofs.Run.Characters
import Phrase.Proofs.Symbol.Stepwise
import Phrase.Proofs.Tree.Snapshot

/-!
# Nothing is ever at fault

Every operation with a condition is used where its condition holds.  A parse starts in front of
the end of reading and never gets behind it, whatever the units are, so cursors never pass their
end, and spans that are read again lie inside of the source; looking ahead can be done unit by unit
without missing one; the bounds of productions are brackets, so that the tree handler and its arena
are never out of step; and the tokens of a tree lie behind each other up to where the root has got
to, so the tree can be shown over the same source (`Grammar.faultless_of_tablesInUse`).
-/

namespace Phrase

/-- What is asked of an answer holds of it.  There may be none for lack of fuel, but not because
of a fault. -/
def NoFault {α : Type} (x : Except Halt α) (Fits : α → Prop) : Prop :=
  match x with
  | .ok a => Fits a
  | .error .exhausted => True
  | .error (.fault _) => False

/-! ## Rules -/

/-- No condition is broken in an environment, wherever something starts in front of the end. -/
structure Environment.Faultless (env : Environment) : Prop where
  /-- No unit that is looked at is missing. -/
  peekAt : ∀ p n, (env.cursor p).readAt n = .ok ((env.cursor p).peekAt n)
  /-- Decoding goes from unit to unit, and stands still where a continuation unit leads. -/
  decode : ∀ p, p ≤ env.stop → (env.cursor p).decodeStepwise = .ok (env.cursor p).decode ∧
    ((env.cursor p).decode.status = .leadsWithContinuation → (env.cursor p).decode.length = 0)
  /-- Characters fit into their buffer, and are compared unit by unit. -/
  literal : ∀ text p, p ≤ env.stop →
    (env.cursor p).matchLiteralStepwise text = .ok (matchLiteral text (env.cursor p))
  /-- A trie is built and walked, also by a cursor that reads less far, and the number of a key
  is that of an entry. -/
  symbol : ∀ table p stop, p ≤ stop → stop ≤ env.stop →
    (env.grammar.table table).lookupStepwise ⟨env.source, p, stop⟩ =
      .ok (env.findSymbol table ⟨env.source, p, stop⟩)
  /-- A token that matches ends neither in front of its start nor behind the end. -/
  token : ∀ n t p, p ≤ env.stop →
    NoFault (env.matchToken (env.calls n) t p) fun m => m.Within p env.stop
  /-- A rule is parsed up to the end at most. -/
  parse : ∀ n r scope p, p ≤ env.stop →
    NoFault (env.parse n r scope p) fun o => p ≤ o.position ∧ o.position ≤ env.stop
  /-- An attempt can be made, and it can be gone on from. -/
  attempt : ∀ n r scope p, p ≤ env.stop →
    NoFault (env.attempt n r p) fun commit? => ∀ commit, commit? = some commit →
      NoFault (commit scope p) fun o => p ≤ o.position ∧ o.position ≤ env.stop

section
variable {env : Environment} {α : Type} {m : Parse α} {p : Nat} {h : Halt} {Fits : α → Prop}

theorem Environment.Excuses.noFault (hexcuses : env.Excuses h)
    (hstop : env.stop ≤ env.source.size) : NoFault (.error h) Fits := by
  cases h with
  | fault f => exact absurd hexcuses (Nat.not_lt.2 hstop)
  | exhausted => trivial

theorem EventLaw.Allows.noFault {law : EventLaw env} (h : law.Allows m p)
    (hstop : env.stop ≤ env.source.size) :
    NoFault (m p) fun o => p ≤ o.position ∧ o.position ≤ env.stop := by
  cases hmp : m p with
  | error e =>
    unfold EventLaw.Allows EventLaw.Ensures at h
    rw [hmp] at h
    exact h.noFault hstop
  | ok o => exact h.within hmp

end

/-- No key is empty of a table that is in use. -/
theorem Grammar.TablesInUse.isEmpty_eq_false {g : Grammar} (h : g.TablesInUse) (e : Encoding)
    (n : Nat) {key : String} (hkey : key ∈ ((g.compile e).table n).keys) :
    key.isEmpty = false := by
  rw [SymbolTable.keys, entries_table_compile, table, Array.getD_eq_getD_getElem?] at hkey
  cases ht : g.tables[n]? with
  | none =>
    rw [ht] at hkey
    cases hkey
  | some t =>
    rw [ht] at hkey
    obtain ⟨uses, rfl⟩ := h t (Array.mem_of_getElem? ht)
    exact SymbolTable.isEmpty_of_mem_keys_ofUses hkey

/-- Reading up to an end that lies in the source breaks no condition. -/
theorem Environment.faultless {g : Grammar} (htables : g.TablesInUse) (source : Source)
    {stop : Nat} (hstop : stop ≤ source.size) :
    Environment.Faultless ⟨g.compile source.encoding, source, stop⟩ := by
  generalize henv : (⟨g.compile source.encoding, source, stop⟩ : Environment) = env
  have hsize : env.stop ≤ env.source.size := by
    rw [← henv]
    exact hstop
  constructor
  case peekAt => exact fun p n => Cursor.readAt_eq hsize n
  case decode =>
    exact fun p hp =>
      ⟨Cursor.decodeStepwise_eq ⟨hp, hsize⟩, fun h => Encoding.decode_length_eq_zero h⟩
  case literal => exact fun text p hp => Cursor.matchLiteralStepwise_eq ⟨hp, hsize⟩ text
  case symbol =>
    intro table p stop' hp hstop'
    subst henv
    exact SymbolTable.lookupStepwise_eq (htables.sound table)
      (fun _ hkey => htables.isEmpty_eq_false _ table hkey) ⟨hp, Nat.le_trans hstop' hsize⟩
  case token =>
    intro n t p hp
    have h := EventLaw.matchToken_within (EventLaw.keptBy_bounds env n) t hp
    cases hmatch : env.matchToken (env.calls n) t p with
    | error e =>
      rw [hmatch] at h
      exact h.noFault hsize
    | ok m =>
      rw [hmatch] at h
      exact h
  case parse =>
    intro n r scope p hp
    exact (EventLaw.parse_allows (.bounds env) trivial (fun _ _ => trivial) hp).noFault hsize
  case attempt =>
    intro n r scope p hp
    have hscope : (EventLaw.bounds env).AdmitsScope scope := fun _ _ => trivial
    have h := EventLaw.attempt_allows (.bounds env) (n := n) (r := r) trivial hscope hp
    cases hattempt : env.attempt n r p with
    | error e =>
      unfold EventLaw.AllowsAttempt at h
      rw [hattempt] at h
      exact h.noFault hsize
    | ok commit? =>
      rintro commit rfl
      exact (h.commit hattempt).noFault hsize

/-! ## Runs -/

/-- What is made of the outcome of a run over a source is made without a fault. -/
structure Outcome.Faultless (o : Outcome Outputs) (source : Source) : Prop where
  /-- The tree handler is in step with its builder, the numbers of children are those of nodes,
  and tokens lie inside of the source. -/
  parseAsTree : ∀ before, ∃ report nodes snapshot?,
    o.parseAsTree before = .ok (report, nodes) ∧
      Snapshot.ofArena source nodes = .ok snapshot?
  draw : ∀ showWhitespace, ∃ text, o.tree.draw source showWhitespace = .ok text

/-- The tree of a run has a snapshot over its source, unless it is empty. -/
theorem Outcome.Rooted.exists_snapshot {o : Outcome Outputs} {name : String}
    {inner : List Event} (h : o.Rooted name inner) {source : Source}
    (hstop : o.position ≤ source.size) : ∃ s?, o.tree.snapshot? source = .ok s? := by
  cases hresult : o.result with
  | none =>
    rw [h.tree_eq_empty hresult]
    exact ⟨none, rfl⟩
  | some vs =>
    have hmatched : o.result.isSome := by rw [hresult]; rfl
    obtain ⟨f, htree, -, -, hreaches⟩ := h.tree_eq hmatched
    obtain ⟨hlossless, hrange⟩ := hreaches.toNode
    obtain ⟨s, hs⟩ := Snapshot.exists_ofNode f.toNode hlossless (by rw [hrange]; exact hstop)
    refine ⟨some s, ?_⟩
    rw [htree]
    show (Snapshot.ofNode source f.toNode).bind _ = _
    rw [hs]
    rfl

theorem Outcome.Rooted.faultless {o : Outcome Outputs} {name : String} {inner : List Event}
    (h : o.Rooted name inner) {source : Source} (hstop : o.position ≤ source.size) :
    o.Faultless source := by
  obtain ⟨s?, hs⟩ := h.exists_snapshot hstop
  constructor
  case parseAsTree =>
    intro before
    exact ⟨_, _, s?, h.agree.parseAsTree before, (Snapshot.ofArena_arena source o.tree).trans hs⟩
  case draw =>
    intro showWhitespace
    exact ⟨_, by rw [SyntaxTree.draw, hs]; rfl⟩

/-- No condition is broken when a grammar is used on a source. -/
structure Grammar.Faultless (g : Grammar) (source : Source) : Prop where
  rules : ∀ stop, stop ≤ source.size →
    Environment.Faultless ⟨g.compile source.encoding, source, stop⟩
  /-- Whatever is made of a run is made of its outcome, which is in front of the end. -/
  run : ∀ root options, NoFault (g.run root source options) fun o => o.Faultless source
  /-- The same however much fuel a run is given. -/
  runs : ∀ root options o, g.Runs root source options o → o.Faultless source
  /-- A rule can be matched at a cursor, which can be moved behind what matches. -/
  matchEnd : ∀ c : Cursor, c.source = source → c.Valid → ∀ r,
    NoFault (g.matchEnd c r) fun stop? => ∀ stop, stop? = some stop →
      c.moveTo stop = .ok { c with position := stop }

namespace Grammar

variable {g : Grammar} {source : Source}

/-- A run ends in front of the end of its source. -/
theorem Runs.position_le {root : Nat} {options : Options} {o : Outcome Outputs}
    (h : g.Runs root source options o) : o.position ≤ source.size := by
  obtain ⟨fuel, ho⟩ := h
  exact (((g.environment source).parse_covers fuel _ _ 0 (Nat.zero_le _)).1 o ho).position_le

theorem Runs.faultless {root : Nat} {options : Options} {o : Outcome Outputs}
    (h : g.Runs root source options o) : o.Faultless source := by
  obtain ⟨inner, hroot⟩ := h.rooted
  exact hroot.faultless h.position_le

/-- Whatever the units of a source are, and however it ends, a run of a grammar is not at fault,
and neither is what is made of it. -/
theorem faultless_of_tablesInUse (htables : g.TablesInUse) (source : Source) :
    g.Faultless source := by
  have hrules : ∀ stop, stop ≤ source.size →
      Environment.Faultless ⟨g.compile source.encoding, source, stop⟩ :=
    fun _ hstop => Environment.faultless htables source hstop
  constructor
  case rules => exact hrules
  case run =>
    intro root options
    have hparse := (hrules source.size (Nat.le_refl _)).parse
      ((g.environment source).fuel options.maxDepth) (.production root)
      (.outer options.state options.maxDepth .discard) 0 (Nat.zero_le _)
    change NoFault (g.run root source options) _ at hparse
    cases hrun : g.run root source options with
    | error e =>
      rw [hrun] at hparse
      cases e with
      | fault f => exact hparse
      | exhausted => trivial
    | ok o => exact (runs_of_run hrun).faultless
  case runs => exact fun root options o h => h.faultless
  case matchEnd =>
    rintro c rfl hc r
    have hparse := (hrules c.stop hc.stop_le).parse
      (Environment.fuel ⟨g.compile c.source.encoding, c.source, c.stop⟩ Scope.silent.maxDepth)
      r .silent c.position hc.position_le
    change NoFault (g.parseAt c r .silent) _ at hparse
    unfold matchEnd
    cases hmatch : g.parseAt c r .silent with
    | error e =>
      rw [hmatch] at hparse
      cases e with
      | fault f => exact hparse
      | exhausted => trivial
    | ok o =>
      rw [hmatch] at hparse
      intro stop hstop
      split at hstop
      · cases hstop
        exact Cursor.moveTo_eq hparse.2
      · cases hstop

/-- A lead byte without its continuation in front of a keyword: the root goes on behind it. -/
theorem faultless_malformed :
    let g : Grammar := ⟨#[
      ⟨"root", .seq (.recover (.token (.codePoint .any))) (.symbol 0), .discard, none, false⟩],
      #[.ofUses [.add "in" (.count 0), .add "int" (.count 1)]]⟩
    let source : Source := ⟨.utf8, #[0xC3, 0x69, 0x6E, 0x74], by decide⟩
    g.TablesInUse ∧ g.Faultless source ∧ ∃ o, g.Runs 0 source .standard o ∧
      o.validate.status = .recoveredError ∧ o.position = 4 ∧ o.Faultless source := by
  intro g source
  have htables : g.TablesInUse := fun t ht => ⟨_, Array.eq_of_mem_singleton ht⟩
  have hrun : ((g.environment source).parse 5 (.production 0)
      (.outer .none Scope.defaultMaxDepth .discard)).answers 0 (fun o =>
        o.validate.status == .recoveredError && o.position == 4) = true := by decide +kernel
  obtain ⟨o, ho, hcheck⟩ := Parse.exists_of_answers hrun
  rw [Bool.and_eq_true, beq_iff_eq, beq_iff_eq] at hcheck
  have hruns : g.Runs 0 source .standard o := ⟨5, ho⟩
  have hfaultless := faultless_of_tablesInUse htables source
  exact ⟨htables, hfaultless, o, hruns, hcheck.1, hcheck.2, hfaultless.runs _ _ _ hruns⟩

end Grammar

end Phrase
