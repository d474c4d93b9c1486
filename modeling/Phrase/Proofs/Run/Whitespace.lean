import Phrase.Proofs.Parse.Halting
import Phrase.Proofs.Parse.Surroundings
import Phrase.Proofs.Run.Root

/-!
# Whitespace in a run

What a run skips as whitespace, and where, is decided by the productions that are open: the run
goes as one over surroundings does.  A token is closed to the whitespace around it: what is emitted
between its bounds does not depend on that, and there is whitespace among it only where a rule
inside of the token makes some (`Grammar.whitespace_lexical`).
-/

namespace Phrase

/-- Running a grammar with whitespace read off the open productions ends with this outcome, given
enough fuel. -/
def Grammar.RunsLexically (g : Grammar) (root : Nat) (source : Source) (options : Options)
    (o : Outcome Outputs) : Prop :=
  ∃ fuel, ((g.environment source).lexicalCalls fuel .outer).parse (.production root)
    (.outer options.state options.maxDepth .discard) 0 = .ok o

/-- The events start with the bounds of a production and what an outcome has emitted between. -/
def Production.Encloses (production : Production) (p : Nat) (i : Outcome Outputs)
    (es : List Event) : Prop :=
  ∃ behind, es = .start production.name p ::
    (i.events ++ .close production.name i.result.isSome i.position :: behind)

namespace Environment

variable {env : Environment} {n k : Nat} {s : Scope} {p : Nat} {o : Outcome Outputs}

/-- A reference to a production ends with an outcome, parsed or gone on with from an attempt. -/
def ReferenceEnds (env : Environment) (k : Nat) (s : Scope) (p : Nat) (o : Outcome Outputs) :
    Prop :=
  env.ParseEnds (.production k) s p (.ok o) ∨ env.ParseEnds (.recurse k) s p (.ok o) ∨
    env.FinishEnds (.production k) s p (.ok o)

/-- However it is entered, a production is parsed. -/
theorem ReferenceEnds.exists_parse (h : env.ReferenceEnds k s p o) :
    ∃ n, env.parseProduction (env.calls n) k s p = .ok o := by
  have hparse : ∀ r, (∀ n, env.parse (n + 1) r s = env.parseProduction (env.calls n) k s) →
      env.ParseEnds r s p (.ok o) → ∃ n, env.parseProduction (env.calls n) k s p = .ok o := by
    rintro r hr ⟨-, n, hn⟩
    cases n with
    | zero => cases hn
    | succ n => exact ⟨n, by rw [← hr, hn]⟩
  rcases h with h | h | h
  · exact hparse _ (fun _ => rfl) h
  · exact hparse _ (fun _ => rfl) h
  · obtain ⟨_, hattempt⟩ : ∃ n commit, env.attempt n (.production k) p = .ok (some commit) := by
      obtain ⟨-, n, commit, hcommit, -⟩ := h
      exact ⟨n, commit, hcommit⟩
    obtain ⟨commit, hcommit⟩ := hattempt
    exact hparse _ (fun _ => rfl) ((finishEnds_iff hcommit _).1 h)

/-- A production is refused with nothing but an error, or its bounds are around what its rule
emits. -/
theorem inProduction_events {calls : Calls} {production : Production} {body : Commit}
    (h : inProduction calls production s body p = .ok o) :
    (s.Refuses ∧ ∀ e ∈ o.events, e.isError = true) ∨
      ¬ s.Refuses ∧ ∃ i, body (s.inside production) p = .ok i ∧ production.Encloses p i o.events := by
  by_cases hs : s.Refuses
  · rw [inProduction_of_refuses hs] at h
    cases h
    exact .inl ⟨hs, fun e he => List.mem_singleton.1 he ▸ rfl⟩
  · rw [inProduction_of_not_refuses hs] at h
    rcases Parse.bind_cases h with ⟨_, _, hfirst, rfl⟩ | ⟨_, _, _, next, hfirst, -, rfl⟩
    · obtain ⟨i, hi, hevents⟩ := Parse.between_cases hfirst
      obtain ⟨-, -, rfl⟩ := Outcome.mk.inj hevents
      exact .inr ⟨hs, i, hi, [], rfl⟩
    · obtain ⟨i, hi, hevents⟩ := Parse.between_cases hfirst
      obtain ⟨-, -, rfl⟩ := Outcome.mk.inj hevents
      refine .inr ⟨hs, i, hi, next.events, ?_⟩
      rw [List.cons_append, List.append_assoc]
      rfl

end Environment

/-- Whitespace is scoped by the productions that are open.

A run goes as it does over surroundings: every rule outside of tokens and of whitespace is parsed
with the whitespace that the innermost open production declares of those that declare one, none
beyond the innermost token being seen, and whitespace is skipped by itself exactly where no open
production is a token and no `noWhitespace` is open.

A token that is not refused at once stands between its bounds.  If there is whitespace between them,
a rule that makes some has been parsed there: an interpreter is halted that any such rule halts,
with whatever fault.  And with any other whitespace around the token, skipped by itself or not, the
same stands between its bounds. -/
theorem Grammar.whitespace_lexical (g : Grammar) (source : Source) :
    (∀ root options o, g.Runs root source options o ↔ g.RunsLexically root source options o) ∧
    ∀ k s p o, (g.production k).isToken = true →
      (g.environment source).ReferenceEnds k s p o →
      (s.Refuses ∧ ∀ e ∈ o.events, e.isError = true) ∨
      ∃ i, (g.environment source).ParseEnds (g.production k).rule (s.inside (g.production k)) p
          (.ok i) ∧
        (g.production k).Encloses p i o.events ∧
        (∀ e ∈ i.events, e.isWhitespace = true → ∀ f, ∃ n,
          ((g.environment source).haltingCalls f n).parse (g.production k).rule
            (s.inside (g.production k)) p = .error (.fault f)) ∧
        ∀ whitespace auto o', (g.environment source).ReferenceEnds k { s with whitespace, auto } p o' →
          (g.production k).Encloses p i o'.events := by
  refine ⟨fun root options o => ?_, fun k s p o htoken h => ?_⟩
  · refine exists_congr fun fuel => ?_
    rw [Environment.lexicalCalls_eq]
    exact Iff.rfl
  · let env := g.environment source
    have hinside : ∀ whitespace auto, ({ s with whitespace, auto } : Scope).inside (g.production k) =
        s.inside (g.production k) := by
      intro whitespace auto
      unfold Scope.inside
      simp only [htoken, if_true]
    obtain ⟨n, hn⟩ := h.exists_parse
    rcases Environment.inProduction_events hn with hrefused | ⟨hs, i, hi, hencloses⟩
    · exact .inl hrefused
    · have hends : env.ParseEnds (g.production k).rule (s.inside (g.production k)) p (.ok i) :=
        ⟨fun h => (nomatch h), n, hi⟩
      refine .inr ⟨i, hends, hencloses, fun e he hwhitespace f => ⟨n, ?_⟩,
        fun whitespace auto o' h' => ?_⟩
      · have hauto : (s.inside (g.production k)).auto = false := by
          unfold Scope.inside
          simp only [htoken, if_true]
        exact Environment.halts_of_whitespace hauto hi he hwhitespace f
      · obtain ⟨n', hn'⟩ := h'.exists_parse
        rcases Environment.inProduction_events hn' with ⟨hrefuses, -⟩ | ⟨-, i', hi', hencloses'⟩
        · exact absurd hrefuses hs
        · change ((g.environment source).calls n').parse (g.production k).rule
            (({ s with whitespace, auto } : Scope).inside (g.production k)) p = .ok i' at hi'
          rw [hinside] at hi'
          have hends' : env.ParseEnds (g.production k).rule (s.inside (g.production k)) p (.ok i') :=
            ⟨fun h => (nomatch h), n', hi'⟩
          obtain rfl := Except.ok.inj (hends.unique hends')
          exact hencloses'

/-- A token with a blank inside of it, in a list with blanks around its items: the blank in the
token comes from its own rule, so the run that is halted by such rules is halted there. -/
theorem Grammar.whitespace_lexical_pair :
    let blank : Rule := .token (.charClass .blank)
    let g : Grammar := ⟨#[
      ⟨"list", .seq (.token (.literal "a")) (.seq (.production 1) (.token (.literal "b"))),
        .discard, some blank, false⟩,
      ⟨"pair", .seq (.token (.literal "x")) (.seq (.whitespace blank) (.token (.literal "y"))),
        .discard, none, true⟩], #[]⟩
    let source : Source := .ofText .utf8 "a x y b"
    let s : Scope := { Scope.silent with whitespace := some blank }
    (∃ o, g.RunsLexically 0 source .standard o ∧ o.result.isSome = true) ∧
      (g.production 1).isToken = true ∧
      ∃ o, (g.environment source).ReferenceEnds 1 s 2 o ∧
        o.events = [.start "pair" 2, .token .literal ⟨2, 3⟩, .token .whitespace ⟨3, 4⟩,
          .token .literal ⟨4, 5⟩, .finish "pair" 5, .token .whitespace ⟨5, 6⟩] ∧
        ∃ n, ((g.environment source).haltingCalls .outOfBounds n).parse (g.production 1).rule
          (s.inside (g.production 1)) 2 = .error (.fault .outOfBounds) := by
  intro blank g source s
  have hrun : ((g.environment source).parse 12 (.production 0)
      (.outer .none Scope.defaultMaxDepth .discard)).answers 0 (·.result.isSome) = true := by
    decide +kernel
  obtain ⟨o, ho, hmatched⟩ := Parse.exists_of_answers hrun
  have hruns : g.Runs 0 source .standard o := ⟨12, ho⟩
  have htoken : ((g.environment source).parse 12 (.production 1) s).answers 2 (fun o =>
      o.events == [.start "pair" 2, .token .literal ⟨2, 3⟩, .token .whitespace ⟨3, 4⟩,
        .token .literal ⟨4, 5⟩, .finish "pair" 5, .token .whitespace ⟨5, 6⟩]) = true := by
    decide +kernel
  obtain ⟨o₁, ho₁, hevents⟩ := Parse.exists_of_answers htoken
  have hends : (g.environment source).ReferenceEnds 1 s 2 o₁ := .inl ⟨nofun, 12, ho₁⟩
  have hrefuses : ¬ s.Refuses := fun h => absurd h.2 (by decide)
  have hinside : ((g.environment source).parse 12 (g.production 1).rule
      (s.inside (g.production 1))).answers 2 (fun i =>
        i.events.contains (.token .whitespace ⟨3, 4⟩)) = true := by
    decide +kernel
  obtain ⟨i, hi, hmem⟩ := Parse.exists_of_answers hinside
  have hiends : (g.environment source).ParseEnds (g.production 1).rule
      (s.inside (g.production 1)) 2 (.ok i) := ⟨nofun, 12, hi⟩
  obtain ⟨hlexical, htokens⟩ := Grammar.whitespace_lexical g source
  obtain ⟨hrefused, -⟩ | ⟨i', hi', -, hhalts, -⟩ := htokens 1 s 2 o₁ rfl hends
  · exact absurd hrefused hrefuses
  obtain rfl := Except.ok.inj (hi'.unique hiends)
  exact ⟨⟨o, (hlexical 0 .standard o).1 hruns, hmatched⟩, rfl, o₁, hends, beq_iff_eq.1 hevents,
    hhalts _ (List.contains_iff_mem.1 hmem) rfl .outOfBounds⟩

end Phrase
