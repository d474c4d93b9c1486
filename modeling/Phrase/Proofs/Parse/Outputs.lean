import Phrase.Proofs.Parse.Attempt
import Phrase.Proofs.Rule.Inside

/-!
# How many values a rule outputs

The number of values that a rule outputs can be told from the rule, if everything in it fits
together (`Rule.fits`): an optional branch that outputs a value does so only where it applies, and
alternatives of a choice that differ leave it to the input.  Otherwise every result has as many
values as the arity of the rule says (`Environment.parse_hasArity`), and so have what goes on from
an attempt (`Environment.attempt_hasArity`) and the defaults behind a failure.  A production outputs
one value, whatever is in it (`Environment.exists_output_of_production`).
-/

namespace Phrase

/-! ## Control -/

namespace Parse

variable {α : Type} {m : Parse Outputs} {k : α → Parse Outputs} {count : Nat}

/-- Wherever a parse is started, if it succeeds, it outputs so many values. -/
def HasArity (m : Parse Outputs) (count : Nat) : Prop :=
  ∀ p outputs q es, m p = .ok ⟨some outputs, q, es⟩ → outputs.length = count

theorem hasArity_pure (outputs : Outputs) :
    (pure outputs : Parse Outputs).HasArity outputs.length := by
  intro p outputs q es h
  cases h
  rfl

theorem hasArity_fail : (fail : Parse Outputs).HasArity count := by
  intro p outputs q es h
  cases h

theorem hasArity_halt (h : Halt) : (halt h : Parse Outputs).HasArity count := by
  intro p outputs q es h
  cases h

/-- What comes last decides. -/
theorem HasArity.behind {m : Parse α} (hk : ∀ a, (k a).HasArity count) :
    (m >>= k).HasArity count := by
  intro p outputs q es h
  obtain ⟨a, _, _, _, -, hnext, -⟩ := bind_some_cases h
  exact hk a _ _ _ _ hnext

theorem HasArity.bind {count' : Nat} {k : Outputs → Parse Outputs} (hm : m.HasArity count)
    (hk : ∀ outputs, outputs.length = count → (k outputs).HasArity count') :
    (m >>= k).HasArity count' := by
  intro p outputs q es h
  obtain ⟨first, _, _, _, hfirst, hnext, -⟩ := bind_some_cases h
  exact hk first (hm _ _ _ _ hfirst) _ _ _ _ hnext

/-- Whatever can be found at a place, the parse that it leads to decides. -/
theorem hasArity_look {f : Nat → Except Halt α}
    (hk : ∀ p a outputs q es, f p = .ok a → k a p = .ok ⟨some outputs, q, es⟩ →
      outputs.length = count) : (look f >>= k).HasArity count := by
  intro p outputs q es h
  cases hf : f p with
  | error e => cases (bind_of_error (look_of_error hf)).symm.trans h
  | ok a => exact hk p a outputs q es hf ((bind_of_quiet (look_eq hf)).symm.trans h)

theorem HasArity.orDefault {outputs : Outputs} (hm : m.HasArity outputs.length) :
    (m.orDefault outputs).HasArity outputs.length := by
  intro p outputs q es h
  obtain ⟨⟨result, position, fs⟩, hfirst, ho⟩ := orDefault_cases h
  cases ho
  cases result with
  | some first => exact hm _ _ _ _ hfirst
  | none => rfl

end Parse

namespace Environment

open Parse

variable {env : Environment} {calls : Calls} {m : Parse Outputs} {scope : Scope}
  {count count' n p : Nat} {r : Rule}

/-! ## Steps -/

theorem length_defaults (r : Rule) : (defaults r).length = r.arity := List.length_replicate

theorem commitToken_hasArity (t : Token) (stop : Nat) :
    (env.commitToken calls t stop scope).HasArity 0 := .behind fun _ => hasArity_pure []

theorem commitCapture_hasArity (t : Token) (stop : Nat) :
    (env.commitCapture calls t stop scope).HasArity 1 :=
  .behind fun _ => .behind fun _ => hasArity_pure [_]

theorem commitInteger_hasArity (type : IntegerType) (radix : Radix) (stop : Nat) :
    (env.commitInteger calls type radix stop scope).HasArity 1 := by
  refine .behind fun _ => .behind fun digits => ?_
  split
  · exact .behind fun _ => hasArity_pure [_]
  · exact .behind fun _ => .behind fun _ => hasArity_fail

theorem commitSymbol_hasArity (kind : TokenKind) (v : Value) (stop : Nat) :
    (env.commitSymbol calls kind v stop scope).HasArity 1 := .behind fun _ => hasArity_pure [v]

theorem refuseSymbol_hasArity (kind : TokenKind) (stop : Nat) :
    (env.refuseSymbol kind stop scope).HasArity count :=
  .behind fun _ => .behind fun _ => .behind fun _ => hasArity_fail

/-- The outputs of a sequence are those of both parts. -/
theorem andThen_hasArity {rest : Rule} (hm : m.HasArity count)
    (hrest : (calls.parse rest scope).HasArity count') :
    (andThen calls m rest scope).HasArity (count + count') := by
  refine hm.bind fun first hfirst => hrest.bind fun second hsecond => ?_
  rw [← hfirst, ← hsecond, ← List.length_append]
  exact hasArity_pure (first ++ second)

theorem thenSkip_hasArity (hm : m.HasArity count) : (thenSkip calls m scope).HasArity count :=
  hm.bind fun outputs houtputs => .behind fun _ => houtputs ▸ hasArity_pure outputs

theorem listFrom_hasArity (item : Rule) : (listFrom calls item scope m).HasArity 1 :=
  .behind fun _ => .behind fun _ => hasArity_pure [_]

/-- A production has one value, whatever the rule in it outputs. -/
theorem inProduction_hasArity (production : Production) (body : Commit) :
    (inProduction calls production scope body).HasArity 1 := by
  unfold inProduction
  split
  · exact .behind fun _ => .behind fun _ => hasArity_fail
  · exact .behind fun _ => .behind fun _ => hasArity_pure [_]

/-! ## Rules -/

theorem fits_part {s : Rule} (h : ∀ t ∈ r.outside, t.fits = true) (hs : s ∈ r.parts) :
    ∀ t ∈ s.outside, t.fits = true :=
  fun t ht => h t (Rule.mem_outside_of_part hs ht)

/-- Going on from an attempt outputs what parsing does. -/
theorem attempt_hasArity (h : ∀ n, (env.parse n r scope).HasArity count) {commit : Commit}
    (hcommit : env.attempt n r p = .ok (some commit)) {outputs : Outputs} {q : Nat}
    {es : List Event} (ho : commit scope p = .ok ⟨some outputs, q, es⟩) :
    outputs.length = count :=
  h (n + 1) _ _ _ _ ((commit_between scope hcommit).2.eq ho (nomatch ·))

/-- Where a choice applies, one of its alternatives does, and goes on as the choice. -/
theorem exists_attempt_of_choice {first second : Rule} {commit : Commit}
    (h : env.attempt n (.choice first second) p = .ok (some commit)) :
    ∃ k, env.attempt k first p = .ok (some commit) ∨
      env.attempt k second p = .ok (some commit) := by
  obtain ⟨k, h⟩ := exists_calls_of_attempt h
  refine ⟨k, ?_⟩
  unfold attemptRule at h
  cases hfirst : env.attempt k first p with
  | error e =>
    simp only [calls, hfirst] at h
    cases h
  | ok first? =>
    simp only [calls, hfirst] at h
    cases first? with
    | some commit => exact .inl h
    | none => exact .inr h

/-- A rule in which everything fits outputs as many values as its arity says.  The induction is on
the rule: what a production or a repetition has inside does not show in its outputs. -/
theorem parse_hasArity : (r : Rule) → (∀ s ∈ r.outside, s.fits = true) → (n : Nat) →
    (scope : Scope) → (env.parse n r scope).HasArity r.arity
  | _, _, 0, _ => hasArity_halt .exhausted
  | .token t, _, _ + 1, _ => .behind fun stop => commitToken_hasArity t stop
  | .capture t, _, _ + 1, _ => .behind fun stop => commitCapture_hasArity t stop
  | .integer type radix, _, _ + 1, _ => .behind fun stop => commitInteger_hasArity type radix stop
  | .position, _, _ + 1, _ => .behind fun _ => .behind fun _ => hasArity_pure [_]
  | .symbol table, _, _ + 1, _ => by
    refine .behind fun found => ?_
    cases found with
    | some found => exact commitSymbol_hasArity .identifier found.1 found.2
    | none => exact .behind fun _ => .behind fun _ => hasArity_fail
  | .symbolOf table t, _, _ + 1, _ => by
    refine .behind fun stop => .behind fun _ => .behind fun found => ?_
    cases found with
    | some v => exact commitSymbol_hasArity t.kind v stop
    | none => exact refuseSymbol_hasArity t.kind stop
  | .symbolIdentifier table leading trailing, _, _ + 1, _ => by
    refine .behind fun _ => .behind fun found => ?_
    cases found with
    | some found => exact commitSymbol_hasArity .identifier found.1 found.2
    | none => exact .behind fun stop => refuseSymbol_hasArity .identifier stop
  | .seq first second, h, n + 1, scope =>
    andThen_hasArity (parse_hasArity first (fits_part h (by simp [Rule.parts])) n scope)
      (parse_hasArity second (fits_part h (by simp [Rule.parts])) n scope)
  | .branch condition rest, h, n + 1, scope =>
    andThen_hasArity (parse_hasArity condition (fits_part h (by simp [Rule.parts])) n scope)
      (parse_hasArity rest (fits_part h (by simp [Rule.parts])) n scope)
  | .choice first second, h, n + 1, scope => by
    have hfirst := parse_hasArity first (fits_part h (by simp [Rule.parts]))
    have hsecond := parse_hasArity second (fits_part h (by simp [Rule.parts]))
    have hfits : first.arity = second.arity := beq_iff_eq.1 (h _ (Rule.mem_outside_self _))
    refine hasArity_look fun p commit? outputs q es hattempt ho => ?_
    cases commit? with
    | none => exact HasArity.behind (fun _ => .behind fun _ => hasArity_fail) _ _ _ _ ho
    | some commit =>
      obtain ⟨k, hcommit | hcommit⟩ := exists_attempt_of_choice hattempt
      · exact attempt_hasArity (fun n => hfirst n scope) hcommit ho
      · exact (attempt_hasArity (fun n => hsecond n scope) hcommit ho).trans hfits.symm
  | .opt r, h, n + 1, scope => by
    have hr := parse_hasArity r (fits_part h (by simp [Rule.parts]))
    have hfits : r.arity = 0 := beq_iff_eq.1 (h _ (Rule.mem_outside_self _))
    refine hasArity_look fun p commit? outputs q es hattempt ho => ?_
    cases commit? with
    | none => exact hasArity_pure [] _ _ _ _ ho
    | some commit => exact (attempt_hasArity (fun n => hr n scope) hattempt ho).trans hfits
  | .list item, _, _ + 1, _ => listFrom_hasArity item
  | .listOpt item, _, _ + 1, _ => .behind fun _ => hasArity_pure [_]
  | .listSep item separator, _, _ + 1, _ => .behind fun _ => .behind fun _ => hasArity_pure [_]
  | .listTrailing item separator, _, _ + 1, _ =>
    .behind fun _ => .behind fun _ => hasArity_pure [_]
  | .times count item, _, _ + 1, _ => .behind fun _ => hasArity_pure [_]
  | .production number, _, _ + 1, _ => inProduction_hasArity _ _
  | .recurse number, _, _ + 1, _ => inProduction_hasArity _ _
  | .recover r, h, n + 1, scope => by
    have hr := parse_hasArity r (fits_part h (by simp [Rule.parts])) n scope
    rw [← length_defaults r] at hr
    exact length_defaults r ▸ hr.orDefault
  | .scopeWhitespace, _, _ + 1, _ => .behind fun _ => hasArity_pure []
  | .whitespace r, _, _ + 1, _ => .behind fun _ => hasArity_pure []
  | .noWhitespace r, h, n + 1, scope =>
    thenSkip_hasArity (parse_hasArity r (fits_part h (by simp [Rule.parts])) n scope.withoutAuto)
  | .never, _, _ + 1, _ => hasArity_pure []
  | .fail message, _, _ + 1, _ => .behind fun _ => .behind fun _ => hasArity_fail
  | .warn message, _, _ + 1, _ => .behind fun _ => .behind fun _ => hasArity_pure []
  | .context, _, _ + 1, _ => hasArity_pure [_]
  | .emit kind width, _, _ + 1, _ => .behind fun _ => .behind fun _ => hasArity_pure []

/-- A production outputs its value only. -/
theorem exists_output_of_production {number : Nat} {o : Outcome Outputs}
    (h : env.parse n (.production number) scope p = .ok o) :
    ∀ outputs, o.result = some outputs → ∃ v, outputs = [v] := by
  intro outputs houtputs
  have hfits : ∀ s ∈ (Rule.production number).outside, s.fits = true := by
    intro s hs
    rw [List.mem_singleton.1 hs]
    rfl
  obtain ⟨result, q, es⟩ := o
  obtain rfl : result = some outputs := houtputs
  exact List.length_eq_one_iff.1 (parse_hasArity (.production number) hfits n scope _ _ _ _ h)

/-- An optional branch that does not fit: it outputs a value, which its arity does not count. -/
example :
    let env : Environment := ⟨⟨#[], #[]⟩, ⟨.ascii, #[], by decide⟩, 0⟩
    (env.parse 3 (.opt .position) .silent).answers 0
        (fun o => o.result.map List.length == some 1) = true ∧
      (Rule.opt .position).arity = 0 ∧ (Rule.opt .position).fits = false := by
  decide +kernel

end Environment

end Phrase
