import Phrase.Proofs.Parse.Attempt
import Phrase.Proofs.Parse.Tiling
import Phrase.Proofs.Rule.Inside

/-!
# Failures are reported

A failure travels as the absence of a result, through sequences, repetitions, productions and
whitespace; it is reported where it arises and nowhere else.  So a parse that fails has
reported an error, and without recovery a parse reports one error if it fails and none if it
matches (`Environment.ends_reports`).  Both are event laws.
-/

namespace Phrase

/-! ## Rules without recovery -/

/-- A rule is in another one, in a production that it refers to, or in the whitespace of such a
production; the rules that tokens are made of do not count. -/
inductive Grammar.Reaches (g : Grammar) : Rule → Rule → Prop where
  | refl (r : Rule) : Reaches g r r
  | part {r s t : Rule} : s ∈ r.parts → Reaches g s t → Reaches g r t
  | production {r t : Rule} {n : Nat} : r = .production n ∨ r = .recurse n →
      Reaches g (g.production n).rule t → Reaches g r t
  | whitespace {r w t : Rule} {n : Nat} : r = .production n ∨ r = .recurse n →
      (g.production n).whitespace = some w → Reaches g w t → Reaches g r t

/-- Whether a rule may report an error and match nevertheless: by recovering from a failure, or,
if it is one of the grammar's own, by a warning. -/
def Rule.isLenient : Rule → Bool
  | .recover _ | .warn _ => true
  | _ => false

/-- A rule that comes to no rule that is lenient. -/
def Grammar.Strict (g : Grammar) (r : Rule) : Prop :=
  ∀ s, g.Reaches r s → s.isLenient = false

/-- Whether no rule of a grammar is lenient, those of tokens apart. -/
def Grammar.isStrict (g : Grammar) : Bool :=
  g.productions.toList.all fun p => p.rule.outside.all (!·.isLenient) &&
    (p.whitespace.map fun w => w.outside.all (!·.isLenient)).getD true

namespace Grammar

variable {g : Grammar}

theorem Strict.part {r s : Rule} (h : g.Strict r) (hs : s ∈ r.parts) : g.Strict s :=
  fun t ht => h t (.part hs ht)

theorem Strict.production {n : Nat} (h : g.Strict (.production n) ∨ g.Strict (.recurse n)) :
    g.Strict (g.production n).rule ∧
      ∀ w, (g.production n).whitespace = some w → g.Strict w := by
  rcases h with h | h
  · exact ⟨fun t ht => h t (.production (.inl rfl) ht),
      fun w hw t ht => h t (.whitespace (.inl rfl) hw ht)⟩
  · exact ⟨fun t ht => h t (.production (.inr rfl) ht),
      fun w hw t ht => h t (.whitespace (.inr rfl) hw ht)⟩

/-- A grammar that the check passes has strict rules only. -/
theorem strict_of_isStrict (h : g.isStrict = true) {r : Rule}
    (hr : ∀ s ∈ r.outside, s.isLenient = false) : g.Strict r := by
  have hproduction : ∀ n, (∀ s ∈ (g.production n).rule.outside, s.isLenient = false) ∧
      ∀ w, (g.production n).whitespace = some w → ∀ s ∈ w.outside, s.isLenient = false := by
    refine g.forall_production (P := fun p => (∀ s ∈ p.rule.outside, s.isLenient = false) ∧
      ∀ w, p.whitespace = some w → ∀ s ∈ w.outside, s.isLenient = false)
      ⟨fun s hs => ?_, fun w hw => nomatch hw⟩ fun p hp => ?_
    · rw [List.mem_singleton.1 hs]
      rfl
    · have hcheck := List.all_eq_true.1 h p hp
      rw [Bool.and_eq_true, List.all_eq_true] at hcheck
      refine ⟨fun s hs => by simpa using hcheck.1 s hs, fun w hw s hs => ?_⟩
      have hwhitespace := hcheck.2
      rw [hw] at hwhitespace
      simpa using List.all_eq_true.1 hwhitespace s hs
  intro s hs
  induction hs with
  | refl r => exact hr r r.mem_outside_self
  | part hs _ ih => exact ih fun t ht => hr t (Rule.mem_outside_of_part hs ht)
  | production _ _ ih => exact ih (hproduction _).1
  | whitespace _ hw _ ih => exact ih ((hproduction _).2 _ hw)

end Grammar

/-! ## The laws -/

/-- A parse that fails has reported an error. -/
def EventLaw.failing (env : Environment) : EventLaw env :=
  { EventLaw.bounds env with
    Holds := fun b _ _ es => b = false → errorsOf es ≠ []
    nil := fun _ h => nomatch h
    append := fun {b _ _ _ es fs} _ hf hb => by
      rw [errorsOf_append]
      exact List.append_ne_nil_of_right_ne_nil _ (hf hb)
    token := fun _ _ h => nomatch h
    failed := fun _ _ _ => List.cons_ne_nil _ _
    refused := fun _ _ _ _ _ _ => List.cons_ne_nil _ _
    warned := fun _ _ _ h => nomatch h
    recovered := fun _ _ h => nomatch h
    silenced := fun kind h => by
      rw [errorsOf_silenced]
      exact h
    bracketed := fun name h => by
      rw [errorsOf_bracketed]
      exact h }

/-- The number of errors that a parse without recovery reports. -/
def errorCount (matched : Bool) : Nat := if matched then 0 else 1

/-- Without recovery a parse reports one error if it fails, and none if it matches. -/
def EventLaw.strict (env : Environment) : EventLaw env where
  Admits := env.grammar.Strict
  admits_part := Grammar.Strict.part
  admits_production := Grammar.Strict.production
  Holds b _ _ es := (errorsOf es).length = errorCount b
  nil _ := rfl
  append he hf := by
    rw [errorsOf_append, List.length_append, he, hf]
    exact Nat.zero_add _
  token _ _ := rfl
  failed _ _ := rfl
  refused _ _ _ _ _ := rfl
  warned _ hwarn _ := nomatch hwarn _ (.refl _)
  recovered hrecover _ := nomatch hrecover _ (.refl _)
  silenced kind h := by
    rw [errorsOf_silenced]
    exact h
  bracketed name h := by
    rw [errorsOf_bracketed]
    exact h

/-! ## Every rule -/

/-- What a parse that has ended with this outcome has reported. -/
structure Outcome.Reports {α : Type} (o : Outcome α) (strict : Prop) : Prop where
  /-- A failure is reported. -/
  failed : o.result = none → errorsOf o.events ≠ []
  /-- Without recovery it is reported once, and nothing else is. -/
  once : strict → (errorsOf o.events).length = errorCount o.result.isSome

section
variable {env : Environment} {r : Rule} {scope : Scope} {p : Nat} {o : Outcome Outputs}

/-- Whether a rule is parsed or goes on from an attempt, its failure is reported; and if neither
the rule nor the whitespace around it comes to recovery, its failure is all that is
reported. -/
theorem Environment.ends_reports (hp : p ≤ env.stop)
    (hends : env.ParseEnds r scope p (.ok o) ∨ env.FinishEnds r scope p (.ok o)) :
    o.Reports (env.grammar.Strict r ∧
      ∀ w, scope.whitespace = some w → env.grammar.Strict w) := by
  -- What any law says of the outcome, in whichever of the two ways it was reached.
  have hheld : ∀ law : EventLaw env, law.Admits r → law.AdmitsScope scope →
      law.Holds o.result.isSome p o.position o.events := by
    intro law hr hs
    rcases hends with ⟨-, n, hparse⟩ | ⟨-, n, commit, hcommit, hfinish⟩
    · exact (law.parse_allows hr hs hp).held hparse
    · exact ((law.attempt_allows (n := n) hr hs hp).commit hcommit).held hfinish
  constructor
  · intro hnone
    exact hheld (.failing env) trivial (fun _ _ => trivial) (by rw [hnone]; rfl)
  · rintro ⟨hr, hs⟩
    exact hheld (.strict env) hr hs

end

end Phrase
