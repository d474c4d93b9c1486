import Phrase.Proofs.Parse.Reports
import Phrase.Proofs.Run.Actions

/-!
# Reports of runs

What every rule reports of its failures shows in what is reported of a run: a fatal run has at
least one error, and a run without recovery is never recovered and has one error if it is fatal
(`Grammar.reports_failures`).
-/

namespace Phrase

/-- A report that one of the actions makes of a run. -/
inductive Outcome.Answers (o : Outcome Outputs) : Report → Prop where
  | validate : Answers o o.validate
  | parse : Answers o o.parse.1
  | parseAsTree {before nodes : List NodeData} {report : Report} :
      o.parseAsTree before = .ok (report, nodes) → Answers o report

/-- What is known of a report of a run. -/
structure Report.Accounts (report : Report) (strict : Prop) : Prop where
  /-- A fatal run has reported its failure. -/
  fatal : report.status = .fatalError → report.errors ≠ []
  /-- Without recovery no run is recovered. -/
  recovered : strict → report.status ≠ .recoveredError
  /-- Without recovery a fatal run has reported nothing but its failure. -/
  once : strict → report.status = .fatalError → report.errors.length = 1

theorem Outcome.Reports.accounts {o : Outcome Outputs} {strict : Prop} (h : o.Reports strict) :
    o.report.Accounts strict := by
  have hmatched : o.report.status = .fatalError ↔ o.result.isSome = false :=
    Status.of_eq_fatalError_iff _ _
  constructor
  case fatal =>
    intro hfatal
    exact h.failed (Option.not_isSome_iff_eq_none.1 (Bool.eq_false_iff.1 (hmatched.1 hfatal)))
  case recovered =>
    intro hstrict
    have hcount := h.once hstrict
    rw [report, Status.of]
    cases hsome : o.result.isSome with
    | false => exact Status.noConfusion
    | true =>
      rw [hsome] at hcount
      rw [List.length_eq_zero_iff.1 hcount]
      exact Status.noConfusion
  case once =>
    intro hstrict hfatal
    have hcount := h.once hstrict
    rw [hmatched.1 hfatal] at hcount
    exact hcount

namespace Grammar

variable {g : Grammar}

theorem Reaches.compile {e : Encoding} {r s : Rule} (h : (g.compile e).Reaches r s) :
    g.Reaches r s := by
  induction h with
  | refl r => exact .refl r
  | part hs _ ih => exact .part hs ih
  | production hr _ ih => exact .production hr ih
  | whitespace hr hw _ ih => exact .whitespace hr hw ih

theorem Strict.compile {r : Rule} (h : g.Strict r) (e : Encoding) : (g.compile e).Strict r :=
  fun s hs => h s hs.compile

theorem Runs.reports {root : Nat} {source : Source} {options : Options} {o : Outcome Outputs}
    (h : g.Runs root source options o) : o.Reports (g.Strict (.production root)) := by
  obtain ⟨fuel, ho⟩ := h
  have hends := Environment.ends_reports (Nat.zero_le (g.environment source).stop)
    (.inl ⟨fun h => (nomatch h), fuel, ho⟩)
  exact ⟨hends.failed, fun hstrict =>
    hends.once ⟨hstrict.compile source.encoding, fun w hw => (nomatch hw)⟩⟩

/-- A failure is always reported, and without recovery only a failure is, and only once: of
every rule, whether it is parsed or goes on from an attempt, and of every run. -/
theorem reports_failures :
    (∀ (env : Environment) (r : Rule) (scope : Scope) (p : Nat) (o : Outcome Outputs),
      p ≤ env.stop → env.ParseEnds r scope p (.ok o) ∨ env.FinishEnds r scope p (.ok o) →
      (o.result = none → errorsOf o.events ≠ []) ∧
      (env.grammar.Strict r → (∀ w, scope.whitespace = some w → env.grammar.Strict w) →
        (errorsOf o.events).length = if o.result.isSome then 0 else 1)) ∧
    (∀ (g : Grammar) (root : Nat) (source : Source) (options : Options) (o : Outcome Outputs),
      g.Runs root source options o → ∀ report, o.Answers report →
      report.Accounts (g.Strict (.production root))) := by
  constructor
  · intro env r scope p o hp hends
    have hreports := Environment.ends_reports hp hends
    exact ⟨hreports.failed, fun hr hs => hreports.once ⟨hr, hs⟩⟩
  · intro g root source options o hruns report hreport
    have hagree := hruns.actions_agree
    have heq : report = o.report := by
      cases hreport with
      | validate => exact hagree.validate
      | parse => exact hagree.parse.trans hagree.validate
      | @parseAsTree before nodes report h =>
        rw [hagree.parseAsTree] at h
        exact (Prod.mk.inj (Except.ok.inj h)).1.symm.trans hagree.validate
    rw [heq]
    exact hruns.reports.accounts

/-- Behind a digit the whitespace goes on from a space to a line feed that is not there: the
failure passes through the whitespace, a choice, a repetition and two productions. -/
theorem reports_failures_in_whitespace :
    let g : Grammar := ⟨#[
      ⟨"root", .list (.choice (.token (.charClass .alpha)) (.production 1)), .discard,
        some (.branch (.token (.charClass .space)) (.token .newline)), false⟩,
      ⟨"digit", .token (.charClass .digit), .discard, none, false⟩], #[]⟩
    let source : Source := ⟨.utf8, #[0x61, 0x31, 0x20, 0x78], by decide⟩
    let env := g.environment source
    let scope := Scope.outer .none Scope.defaultMaxDepth .discard
    ∃ o, 0 ≤ env.stop ∧ env.ParseEnds (.production 0) scope 0 (.ok o) ∧
      env.grammar.Strict (.production 0) ∧
      (∀ w, scope.whitespace = some w → env.grammar.Strict w) ∧ o.result = none ∧
      errorsOf o.events ≠ [] ∧ (errorsOf o.events).length = 1 ∧
      g.Runs 0 source .standard o ∧ o.Answers o.parse.1 ∧
      o.parse.1.status = .fatalError ∧ o.parse.1.errors.length = 1 := by
  intro g source env scope
  have hrun : (env.parse 9 (.production 0) scope).answers 0 (fun o =>
      o.result.isNone && o.parse.1.status == .fatalError) = true := by decide +kernel
  obtain ⟨o, ho, hcheck⟩ := Parse.exists_of_answers hrun
  rw [Bool.and_eq_true, Option.isNone_iff_eq_none, beq_iff_eq] at hcheck
  obtain ⟨hnone, hfatal⟩ := hcheck
  have hends : env.ParseEnds (.production 0) scope 0 (.ok o) := ⟨fun h => (nomatch h), 9, ho⟩
  have hstrict : g.Strict (.production 0) := by
    refine strict_of_isStrict (by decide +kernel) fun s hs => ?_
    rw [List.mem_singleton.1 hs]
    rfl
  have hstrict' : env.grammar.Strict (.production 0) := hstrict.compile source.encoding
  have hs : ∀ w, scope.whitespace = some w → env.grammar.Strict w := fun w hw => nomatch hw
  have hruns : g.Runs 0 source .standard o := ⟨9, ho⟩
  obtain ⟨hrules, hreports⟩ := reports_failures
  obtain ⟨hfailed, honce⟩ := hrules env (.production 0) scope 0 o (Nat.zero_le _) (.inl hends)
  have hlength := honce hstrict' hs
  rw [hnone] at hlength
  exact ⟨o, Nat.zero_le _, hends, hstrict', hs, hnone, hfailed hnone, hlength, hruns, .parse,
    hfatal, (hreports g 0 source .standard o hruns _ .parse).once hstrict hfatal⟩

end Grammar

end Phrase
