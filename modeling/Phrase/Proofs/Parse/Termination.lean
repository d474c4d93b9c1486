import Phrase.Proofs.Parse.Rule
import Phrase.Proofs.Rule.Characters
import Phrase.Proofs.Rule.Height
import Phrase.Run

/-!
# Parses end

A parse of a ranked grammar is not halted if it is given more fuel than rules are deep and
units are left (`Environment.endsBy`).  Rules in a rule are called with less fuel, but are not as
deep; and what is repeated has moved on, or is not repeated again.  The fuel of a run is enough
for that (`Grammar.Ranked.exists_run`).
-/

namespace Phrase

namespace Environment

variable {env : Environment} {α β σ : Type}

/-! ## Ending -/

/-- A parse that starts at `p` is not halted: it ends between `p` and the end of reading, and a
result that it has fits. -/
def EndsWith (env : Environment) (m : Parse α) (p : Nat) (Fits : α → Nat → Prop) : Prop :=
  ∃ o, m p = .ok o ∧ (p ≤ o.position ∧ o.position ≤ env.stop) ∧
    ∀ a, o.result = some a → Fits a o.position

/-- A parse ends, whatever its result. -/
abbrev Ends (env : Environment) (m : Parse α) (p : Nat) : Prop :=
  env.EndsWith m p fun _ _ => True

/-- An attempt ends, and so does whoever goes on from it. -/
def EndsAttempt (env : Environment) (a : Attempt) (scope : Scope) (p : Nat) : Prop :=
  ∃ commit?, a p = .ok commit? ∧ ∀ commit, commit? = some commit → env.Ends (commit scope) p

section
variable {m : Parse α} {p q : Nat} {Fits : α → Nat → Prop} {Fits' : β → Nat → Prop}

theorem endsWith_of_eq {o : Outcome α} (h : m p = .ok o) (hpq : p ≤ o.position)
    (hq : o.position ≤ env.stop) (hfits : ∀ a, o.result = some a → Fits a o.position) :
    env.EndsWith m p Fits := ⟨o, h, ⟨hpq, hq⟩, hfits⟩

theorem EndsWith.imp {Fits' : α → Nat → Prop} (h : env.EndsWith m p Fits)
    (hfits : ∀ a q, Fits a q → Fits' a q) : env.EndsWith m p Fits' := by
  obtain ⟨o, ho, hbounds, hresult⟩ := h
  exact endsWith_of_eq ho hbounds.1 hbounds.2 fun a ha => hfits a _ (hresult a ha)

theorem EndsWith.ends (h : env.EndsWith m p Fits) : env.Ends m p := h.imp fun _ _ _ => trivial

theorem endsWith_pure {a : α} (hp : p ≤ env.stop) (ha : Fits a p) :
    env.EndsWith (pure a) p Fits :=
  endsWith_of_eq (Parse.pure_apply a p) (Nat.le_refl p) hp fun _ h => Option.some.inj h ▸ ha

theorem EndsWith.bind {k : α → Parse β} (hm : env.EndsWith m p Fits)
    (hk : ∀ a q, p ≤ q → q ≤ env.stop → Fits a q → env.EndsWith (k a) q Fits') :
    env.EndsWith (m >>= k) p Fits' := by
  obtain ⟨⟨result, q, es⟩, hmp, ⟨hpq, hq⟩, hfits⟩ := hm
  cases result with
  | none => exact endsWith_of_eq (Parse.bind_of_none hmp) hpq hq fun _ h => nomatch h
  | some a =>
    obtain ⟨o, hka, ⟨hqr, hr⟩, hfits'⟩ := hk a q hpq hq (hfits a rfl)
    refine endsWith_of_eq (o := ⟨o.result, o.position, es ++ o.events⟩) ?_
      (Nat.le_trans hpq hqr) hr hfits'
    rw [Parse.bind_of_some hmp, hka]

theorem endsWith_position (hp : p ≤ env.stop) :
    env.EndsWith Parse.position p fun a q => a = p ∧ q = p :=
  endsWith_of_eq (o := ⟨some p, p, []⟩) rfl (Nat.le_refl p) hp
    fun _ h => ⟨(Option.some.inj h).symm, rfl⟩

theorem endsWith_look {f : Nat → Except Halt α} {a : α} (hp : p ≤ env.stop) (hf : f p = .ok a) :
    env.EndsWith (Parse.look f) p fun b q => b = a ∧ q = p :=
  endsWith_of_eq (Parse.look_eq hf) (Nat.le_refl p) hp
    fun _ h => ⟨(Option.some.inj h).symm, rfl⟩

theorem endsWith_lift {a : α} (hp : p ≤ env.stop) :
    env.EndsWith (Parse.lift (.ok a)) p fun b q => b = a ∧ q = p :=
  endsWith_of_eq (Parse.lift_ok a p) (Nat.le_refl p) hp
    fun _ h => ⟨(Option.some.inj h).symm, rfl⟩

theorem Ends.between (h : env.Ends m p) (before : Nat → Event) (after : Bool → Nat → Event) :
    env.Ends (m.between before after) p := by
  obtain ⟨o, ho, hbounds, -⟩ := h
  refine endsWith_of_eq (o := ⟨o.result, o.position,
    before p :: (o.events ++ [after o.result.isSome o.position])⟩) ?_ hbounds.1 hbounds.2
    fun _ _ => trivial
  rw [Parse.between, ho]

theorem Ends.asOneToken (h : env.Ends m p) (kind : Bool → TokenKind) :
    env.Ends (m.asOneToken kind) p := by
  obtain ⟨o, ho, hbounds, -⟩ := h
  refine endsWith_of_eq (o := ⟨o.result, o.position, o.events.filter Event.isError ++
    if p < o.position then [.token (kind o.result.isSome) ⟨p, o.position⟩] else []⟩) ?_
    hbounds.1 hbounds.2 fun _ _ => trivial
  rw [Parse.asOneToken, ho]

theorem Ends.orDefault (h : env.Ends m p) (a : α) : env.Ends (m.orDefault a) p := by
  obtain ⟨o, ho, hbounds, -⟩ := h
  refine endsWith_of_eq (o := ⟨some (o.result.getD a), o.position, o.events⟩) ?_
    hbounds.1 hbounds.2 fun _ _ => trivial
  rw [Parse.orDefault, ho]

/-- A loop ends that is repeated only where its step has moved on. -/
theorem ends_iterate {step : σ → Parse (ForInStep σ)}
    (hstep : ∀ s q, q ≤ env.stop →
      env.EndsWith (step s) q fun x r => ∀ t, x = .yield t → q < r)
    {fuel : Nat} (s : σ) (hp : p ≤ env.stop) (hfuel : env.stop - p < fuel) :
    env.Ends (Parse.iterate step fuel s) p := by
  induction fuel generalizing s p with
  | zero => exact absurd hfuel (Nat.not_lt_zero _)
  | succ fuel ih =>
    rw [Parse.iterate]
    refine (hstep s p hp).bind fun x r hpr hr hx => ?_
    cases x with
    | yield t =>
      have := hx t rfl
      exact ih t hr (by omega)
    | done t => exact endsWith_pure hr trivial

theorem ends_replicate {step : σ → Parse σ} (hstep : ∀ s q, q ≤ env.stop → env.Ends (step s) q)
    (count : Nat) (s : σ) (hp : p ≤ env.stop) : env.Ends (Parse.replicate step count s) p := by
  induction count generalizing s p with
  | zero => exact endsWith_pure hp trivial
  | succ count ih =>
    rw [Parse.replicate]
    exact (hstep s p hp).bind fun s q _ hq _ => ih s hq

/-- Behind an attempt that ends. -/
theorem EndsAttempt.bind {a : Attempt} {scope : Scope} {k : Option Commit → Parse β}
    (ha : env.EndsAttempt a scope p) (hp : p ≤ env.stop) (hnone : env.EndsWith (k none) p Fits')
    (hsome : ∀ commit, env.Ends (commit scope) p → env.EndsWith (k (some commit)) p Fits') :
    env.EndsWith (Parse.look a >>= k) p Fits' := by
  obtain ⟨commit?, hcommit?, hcommit⟩ := ha
  refine (endsWith_look hp hcommit?).bind ?_
  rintro c? q - - ⟨rfl, rfl⟩
  cases c? with
  | none => exact hnone
  | some commit => exact hsome commit (hcommit commit rfl)

end

/-! ## Enough fuel -/

/-- A rule can be parsed in a scope with this much fuel. -/
structure Ready (env : Environment) (ranks : Nat → Nat) (r : Rule) (scope : Scope) (n : Nat) :
    Prop where
  paced : ∀ s ∈ r.inside, s.isPaced = true
  whitespace : ∀ w, scope.whitespace = some w → ∀ s ∈ w.inside, s.isPaced = true
  fuel : r.height ranks + reserve ranks scope.whitespace + (env.stop + 2) ≤ n

/-- Whitespace can be skipped in a scope with this much fuel. -/
structure ScopeReady (env : Environment) (ranks : Nat → Nat) (scope : Scope) (n : Nat) :
    Prop where
  whitespace : ∀ w, scope.whitespace = some w → env.Ready ranks w scope.insideWhitespace n
  fuel : env.stop + 2 ≤ n

section
variable {ranks : Nat → Nat} {r s : Rule} {scope : Scope} {n : Nat}

/-- What is ready for a rule is ready for what is in it and less deep. -/
theorem Ready.inner (h : env.Ready ranks r scope (n + 1))
    (hpaced : ∀ t ∈ s.inside, t.isPaced = true)
    (hheight : s.height ranks + 1 ≤ r.height ranks) : env.Ready ranks s scope n := by
  have hfuel := h.fuel
  exact ⟨hpaced, h.whitespace, by omega⟩

theorem Ready.part (h : env.Ready ranks r scope (n + 1)) (hs : s ∈ r.parts) :
    env.Ready ranks s scope n :=
  h.inner (fun t ht => h.paced t (Rule.mem_inside_of_part hs ht)) (Rule.height_of_part ranks hs)

theorem Ready.withoutAuto (h : env.Ready ranks r scope n) :
    env.Ready ranks r scope.withoutAuto n := ⟨h.paced, h.whitespace, h.fuel⟩

theorem Ready.insideWhitespace (h : env.Ready ranks r scope n) :
    env.Ready ranks r scope.insideWhitespace n := by
  have hfuel := h.fuel
  have hnone : reserve ranks scope.insideWhitespace.whitespace = 0 := rfl
  exact ⟨h.paced, fun _ hw => (nomatch hw), by omega⟩

theorem Ready.scopeReady (h : env.Ready ranks r scope (n + 1)) : env.ScopeReady ranks scope n := by
  have hheight := r.height_pos ranks
  have hfuel := h.fuel
  refine ⟨fun w hw => ⟨h.whitespace w hw, fun _ hv => (nomatch hv), ?_⟩, by omega⟩
  have hreserve : reserve ranks scope.whitespace = w.height ranks := by
    rw [hw]
    rfl
  have hnone : reserve ranks scope.insideWhitespace.whitespace = 0 := rfl
  omega

theorem Ready.production {number : Nat} (hgrammar : env.grammar.Ranked ranks)
    (h : env.Ready ranks r scope (n + 1)) (hheight : r.height ranks = ranks number + 1) :
    env.Ready ranks (env.grammar.production number).rule
      (scope.inside (env.grammar.production number)) n := by
  have hrank := hgrammar.height number
  have hfuel := h.fuel
  obtain ⟨hrule, hwhitespace⟩ := env.grammar.forall_inside (P := fun s => s.isPaced = true) rfl
    hgrammar.paced number
  generalize env.grammar.production number = production at *
  refine ⟨hrule, fun w hw => ?_, ?_⟩
  · simp only [Scope.inside] at hw
    split at hw
    · exact hwhitespace w hw
    · rcases Option.or_eq_some_iff.1 hw with hw | ⟨-, hw⟩
      · exact hwhitespace w hw
      · exact h.whitespace w hw
  · have hreserve : reserve ranks (scope.inside production).whitespace ≤
        reserve ranks production.whitespace + reserve ranks scope.whitespace := by
      simp only [Scope.inside]
      split
      · exact Nat.le_add_right _ _
      · cases production.whitespace with
        | none => exact Nat.le_add_left _ _
        | some w => exact Nat.le_add_right _ _
    omega

end

/-- What is known of the rules inside of a rule: those that are ready end. -/
structure EndsBy (env : Environment) (ranks : Nat → Nat) (calls : Calls) (n : Nat) : Prop where
  parse : ∀ {r scope p}, env.Ready ranks r scope n → p ≤ env.stop →
    env.Ends (calls.parse r scope) p
  attempt : ∀ {r scope p}, env.Ready ranks r scope n → p ≤ env.stop →
    env.EndsAttempt (calls.attempt r) scope p
  /-- A position is marked whenever there is fuel. -/
  position : ∀ {scope p}, env.stop + 2 ≤ n → p ≤ env.stop →
    env.Ends (calls.parse .position scope) p
  /-- Trying a choice is a step less than parsing it. -/
  choice : ∀ {r s scope p}, env.Ready ranks (.choice r s) scope (n + 1) → p ≤ env.stop →
    env.EndsAttempt (calls.attempt (.choice r s)) scope p
  /-- Whoever goes on behind a text has moved on. -/
  separator : ∀ {text scope p}, text ≠ "" → env.Ready ranks (.token (.literal text)) scope n →
    p ≤ env.stop → ∃ commit?, calls.attempt (.token (.literal text)) p = .ok commit? ∧
      ∀ commit, commit? = some commit → env.EndsWith (commit scope) p fun _ q => p < q
  fuel : calls.fuel = n
  source : env.stop ≤ env.source.size

section
variable {ranks : Nat → Nat} {calls : Calls} {n : Nat} (hcalls : env.EndsBy ranks calls n)
  {r : Rule} {scope : Scope} {p stop : Nat} {Fits : β → Nat → Prop}

/-! ## Steps -/

theorem passToken_ends (kind : TokenKind) (hp : p ≤ stop) (hstop : stop ≤ env.stop) :
    env.Ends (env.passToken kind stop) p :=
  endsWith_of_eq (passToken_eq kind hstop) hp hstop fun _ _ => trivial

theorem report_fail_ends (kind : ErrorKind) (range : Span) (hp : p ≤ env.stop) :
    env.EndsWith (report scope kind range >>= fun _ => Parse.fail) p Fits :=
  endsWith_of_eq (report_fail_eq scope kind range) (Nat.le_refl p) hp fun _ h => nomatch h

theorem reportFailure_fail_ends {f : TokenFailure} (hp : p ≤ f.stop) (hstop : f.stop ≤ env.stop) :
    env.EndsWith (env.reportFailure f scope >>= fun _ => Parse.fail) p Fits := by
  have hreport : env.Ends (env.reportFailure f scope) p :=
    endsWith_of_eq (reportFailure_eq scope hp hstop) hp hstop fun _ _ => trivial
  exact hreport.bind fun _ q _ hq _ =>
    endsWith_of_eq (o := ⟨none, q, []⟩) rfl (Nat.le_refl q) hq fun _ h => nomatch h

theorem refused_ends (kind : TokenKind) (error : ErrorKind) (range : Span) (hp : p ≤ stop)
    (hstop : stop ≤ env.stop) :
    env.EndsWith (env.passToken kind stop >>= fun _ =>
      report scope error range >>= fun _ => Parse.fail) p Fits :=
  (passToken_ends kind hp hstop).bind fun _ _ _ hq _ => report_fail_ends error range hq

theorem refuseSymbol_ends (kind : TokenKind) (hp : p ≤ stop) (hstop : stop ≤ env.stop) :
    env.Ends (env.refuseSymbol kind stop scope) p := by
  refine (endsWith_position (Nat.le_trans hp hstop)).bind ?_
  rintro begin q - - ⟨rfl, rfl⟩
  exact refused_ends kind _ _ hp hstop

include hcalls

/-! ## Whitespace -/

theorem skipBranch_ends (hr : env.Ready ranks r scope n) (hp : p ≤ env.stop) :
    env.Ends (skipBranch calls r scope) p := by
  have hfuel := hr.fuel
  refine ends_iterate (fun _ q hq => ?_) () hp (by rw [hcalls.fuel]; omega)
  refine (hcalls.attempt hr hq).bind hq (endsWith_pure hq fun _ h => nomatch h) ?_
  intro commit hcommit
  refine (endsWith_position hq).bind ?_
  rintro before q' - - ⟨rfl, rfl⟩
  refine hcommit.bind fun _ t hqt ht _ => (endsWith_position ht).bind ?_
  rintro position t' - ht' ⟨rfl, rfl⟩
  split
  · exact endsWith_pure ht' fun _ h => nomatch h
  · exact endsWith_pure ht' fun _ _ => by omega

theorem skipWith_ends (hr : env.Ready ranks r scope.insideWhitespace n) (hp : p ≤ env.stop) :
    env.Ends (skipWith calls r scope) p :=
  (skipBranch_ends hcalls hr hp).asOneToken _

theorem skipScopeWhitespace_ends (hs : env.ScopeReady ranks scope n) (hp : p ≤ env.stop) :
    env.Ends (skipScopeWhitespace calls scope) p := by
  unfold skipScopeWhitespace
  split
  · next w hw => exact skipWith_ends hcalls (hs.whitespace w hw) hp
  · exact endsWith_pure hp trivial

theorem skipWhitespace_ends (hs : env.ScopeReady ranks scope n) (hp : p ≤ env.stop) :
    env.Ends (skipWhitespace calls scope) p := by
  unfold skipWhitespace
  split
  · exact skipScopeWhitespace_ends hcalls hs hp
  · exact endsWith_pure hp trivial

/-! ## Tokens -/

theorem finishToken_ends (kind : TokenKind) (hs : env.ScopeReady ranks scope n) (hp : p ≤ stop)
    (hstop : stop ≤ env.stop) :
    env.EndsWith (env.finishToken calls kind stop scope) p fun _ q => stop ≤ q := by
  have hpass : env.EndsWith (env.passToken kind stop) p fun _ q => q = stop :=
    endsWith_of_eq (passToken_eq kind hstop) hp hstop fun _ _ => rfl
  refine hpass.bind ?_
  rintro _ q - hq rfl
  obtain ⟨o, ho, hbounds, -⟩ := skipWhitespace_ends hcalls hs hq
  exact endsWith_of_eq ho hbounds.1 hbounds.2 fun _ _ => hbounds.1

theorem commitToken_ends (t : Token) (hs : env.ScopeReady ranks scope n) (hp : p ≤ stop)
    (hstop : stop ≤ env.stop) :
    env.EndsWith (env.commitToken calls t stop scope) p fun _ q => stop ≤ q :=
  (finishToken_ends hcalls t.kind hs hp hstop).bind fun _ _ _ hq h => endsWith_pure hq h

theorem commitCapture_ends (t : Token) (hs : env.ScopeReady ranks scope n) (hp : p ≤ stop)
    (hstop : stop ≤ env.stop) : env.Ends (env.commitCapture calls t stop scope) p := by
  refine (endsWith_position (Nat.le_trans hp hstop)).bind ?_
  rintro begin q - - ⟨rfl, rfl⟩
  exact (finishToken_ends hcalls t.kind hs hp hstop).bind fun _ _ _ hq _ =>
    endsWith_pure hq trivial

theorem commitInteger_ends (type : IntegerType) (radix : Radix)
    (hs : env.ScopeReady ranks scope n) (hp : p ≤ stop) (hstop : stop ≤ env.stop) :
    env.Ends (env.commitInteger calls type radix stop scope) p := by
  unfold commitInteger
  refine (endsWith_position (Nat.le_trans hp hstop)).bind ?_
  rintro begin q - hq ⟨rfl, rfl⟩
  have hslice : env.source.slice ⟨q, stop⟩ = .ok (env.source.units.extract q stop).toList :=
    Source.slice_eq_ok_iff.2 ⟨hp, Nat.le_trans hstop hcalls.source, rfl⟩
  rw [hslice]
  refine (endsWith_lift hq).bind ?_
  rintro digits r - - ⟨-, rfl⟩
  split
  · exact (finishToken_ends hcalls .digits hs hp hstop).bind fun _ _ _ hq _ =>
      endsWith_pure hq trivial
  · exact refused_ends .digits _ _ hp hstop

theorem commitSymbol_ends (kind : TokenKind) (v : Value) (hs : env.ScopeReady ranks scope n)
    (hp : p ≤ stop) (hstop : stop ≤ env.stop) :
    env.Ends (env.commitSymbol calls kind v stop scope) p :=
  (finishToken_ends hcalls kind hs hp hstop).bind fun _ _ _ hq _ => endsWith_pure hq trivial

/-- Matching a token of a rule ends. -/
theorem matchToken_ends {t : Token} (hr : env.Ready ranks r scope (n + 1))
    (ht : r.token? = some t) (hp : p ≤ env.stop) :
    ∃ m, env.matchToken calls t p = .ok m ∧ m.Within p env.stop := by
  by_cases hrule : ∃ s kind, t = .rule s kind
  · obtain ⟨s, kind, rfl⟩ := hrule
    have hready : env.Ready ranks s .silent n := by
      have hfuel := hr.fuel
      have hheight := Rule.height_of_token ranks ht
      have hsilent : reserve ranks Scope.silent.whitespace = 0 := rfl
      exact ⟨fun t h => hr.paced t (Rule.mem_inside_of_token ht h), fun _ h => (nomatch h),
        by omega⟩
    obtain ⟨⟨result, q, es⟩, ho, hbounds, -⟩ := hcalls.parse hready hp
    cases result with
    | none =>
      refine ⟨.error ⟨q, .missingToken, ⟨p, q⟩⟩, ?_, Nat.le_refl p, hbounds.1, Nat.le_refl q,
        hbounds.2⟩
      simp only [matchToken, ho]
    | some outputs => exact ⟨.ok q, by simp only [matchToken, ho], hbounds⟩
  · obtain ⟨m, hm, hw⟩ := Token.matchUnits?_within (c := env.cursor p) hp t
      fun s kind h => hrule ⟨s, kind, h⟩
    refine ⟨m, ?_, hw⟩
    unfold matchToken
    split
    · exact absurd ⟨_, _, rfl⟩ hrule
    · rw [hm]

theorem expectToken_ends {t : Token} (hr : env.Ready ranks r scope (n + 1))
    (ht : r.token? = some t) (hp : p ≤ env.stop) :
    env.EndsWith (env.expectToken calls t scope) p fun stop q =>
      q = p ∧ p ≤ stop ∧ stop ≤ env.stop := by
  obtain ⟨m, hm, hw⟩ := matchToken_ends hcalls hr ht hp
  refine (endsWith_look hp hm).bind ?_
  rintro found q - hq ⟨rfl, rfl⟩
  cases found with
  | ok stop => exact endsWith_pure hq ⟨rfl, hw⟩
  | error f =>
    obtain ⟨hstart, hrange, hread, hstop⟩ := hw
    exact reportFailure_fail_ends (by omega) hstop

/-! ## Sequences -/

theorem andThen_ends {first : Parse Outputs} (hr : env.Ready ranks r scope n)
    (hfirst : env.Ends first p) : env.Ends (andThen calls first r scope) p :=
  hfirst.bind fun _ _ _ hq _ => (hcalls.parse hr hq).bind fun _ _ _ ht _ =>
    endsWith_pure ht trivial

theorem thenSkip_ends {first : Parse Outputs} (hs : env.ScopeReady ranks scope n)
    (hfirst : env.Ends first p) : env.Ends (thenSkip calls first scope) p :=
  hfirst.bind fun _ _ _ hq _ => (skipWhitespace_ends hcalls hs hq).bind fun _ _ _ ht _ =>
    endsWith_pure ht trivial

/-! ## Repetition -/

theorem moreItems_ends (hr : env.Ready ranks r scope n) (c : Container) (hp : p ≤ env.stop) :
    env.Ends (moreItems calls r scope c) p := by
  have hfuel := hr.fuel
  refine ends_iterate (fun c q hq => ?_) c hp (by rw [hcalls.fuel]; omega)
  refine (hcalls.attempt hr hq).bind hq (endsWith_pure hq fun _ h => nomatch h) ?_
  intro commit hcommit
  refine (endsWith_position hq).bind ?_
  rintro before q' - - ⟨rfl, rfl⟩
  refine hcommit.bind fun _ t hqt ht _ => (endsWith_position ht).bind ?_
  rintro position t' - ht' ⟨rfl, rfl⟩
  split
  · exact endsWith_pure ht' fun _ h => nomatch h
  · exact endsWith_pure ht' fun _ _ => by omega

theorem listFrom_ends {first : Parse Outputs} (hr : env.Ready ranks r scope n)
    (hfirst : env.Ends first p) : env.Ends (listFrom calls r scope first) p :=
  hfirst.bind fun _ _ _ hq _ => (moreItems_ends hcalls hr _ hq).bind fun _ _ _ ht _ =>
    endsWith_pure ht trivial

theorem separatedItems_ends {text : String} (htext : text ≠ "") (hr : env.Ready ranks r scope n)
    (hseparator : env.Ready ranks (.token (.literal text)) scope n) (c : Container)
    (hp : p ≤ env.stop) :
    env.Ends (separatedItems calls r (.token (.literal text)) scope c) p := by
  have hfuel := hr.fuel
  refine ends_iterate (fun c q hq => ?_) c hp (by rw [hcalls.fuel]; omega)
  obtain ⟨commit?, hcommit?, hcommit⟩ := hcalls.separator htext hseparator hq
  refine (endsWith_look hq hcommit?).bind ?_
  rintro found q' - hq' ⟨rfl, rfl⟩
  cases found with
  | none => exact endsWith_pure hq' fun _ h => nomatch h
  | some commit =>
    refine (hcommit commit rfl).bind fun _ t _ ht hlt => ?_
    refine (hcalls.parse hr ht).bind fun _ u htu hu _ => ?_
    exact endsWith_pure hu fun _ _ => by omega

theorem trailedItems_ends {text : String} (htext : text ≠ "") (hr : env.Ready ranks r scope n)
    (hseparator : env.Ready ranks (.token (.literal text)) scope n) (c : Container)
    (hp : p ≤ env.stop) :
    env.Ends (trailedItems calls r (.token (.literal text)) scope c) p := by
  have hfuel := hr.fuel
  refine ends_iterate (fun c q hq => ?_) c hp (by rw [hcalls.fuel]; omega)
  obtain ⟨commit?, hcommit?, hcommit⟩ := hcalls.separator htext hseparator hq
  refine (endsWith_look hq hcommit?).bind ?_
  rintro found q' - hq' ⟨rfl, rfl⟩
  cases found with
  | none => exact endsWith_pure hq' fun _ h => nomatch h
  | some commit =>
    refine (hcommit commit rfl).bind fun _ t _ ht hlt => ?_
    refine (hcalls.attempt hr ht).bind ht (endsWith_pure ht fun _ h => nomatch h) ?_
    intro commit' hcommit'
    refine hcommit'.bind fun _ u htu hu _ => ?_
    exact endsWith_pure hu fun _ _ => by omega

/-! ## Productions -/

theorem inProduction_ends (production : Production) {body : Commit}
    (hs : env.ScopeReady ranks scope n) (hp : p ≤ env.stop)
    (hbody : env.Ends (body (scope.inside production)) p) :
    env.Ends (inProduction calls production scope body) p := by
  unfold inProduction
  split
  · refine (endsWith_position hp).bind ?_
    rintro position q - hq ⟨rfl, rfl⟩
    exact report_fail_ends _ _ hq
  · exact (hbody.between _ _).bind fun _ _ _ hq _ =>
      (skipWhitespace_ends hcalls hs hq).bind fun _ _ _ ht _ => endsWith_pure ht trivial

/-! ## All rules -/

theorem parseRule_ends (hgrammar : env.grammar.Ranked ranks)
    (hr : env.Ready ranks r scope (n + 1)) (hp : p ≤ env.stop) :
    env.Ends (env.parseRule calls r scope) p := by
  have hs := hr.scopeReady
  have hpart := fun s (h : s ∈ r.parts) => hr.part h
  cases r with
  | token t =>
    refine (expectToken_ends hcalls hr rfl hp).bind ?_
    rintro stop q - - ⟨rfl, hps, hstop⟩
    exact (commitToken_ends hcalls t hs hps hstop).ends
  | capture t =>
    refine (expectToken_ends hcalls hr rfl hp).bind ?_
    rintro stop q - - ⟨rfl, hps, hstop⟩
    exact commitCapture_ends hcalls t hs hps hstop
  | integer type radix =>
    refine (expectToken_ends hcalls hr rfl hp).bind ?_
    rintro stop q - - ⟨rfl, hps, hstop⟩
    exact commitInteger_ends hcalls type radix hs hps hstop
  | position =>
    exact endsWith_of_eq (o := ⟨some [.pos p], p, [.token .position ⟨p, p⟩]⟩) rfl
      (Nat.le_refl p) hp fun _ _ => trivial
  | symbol table =>
    refine (endsWith_look hp rfl).bind ?_
    rintro found q - hq ⟨rfl, rfl⟩
    split
    · next v stop hfound =>
      obtain ⟨hps, hstop⟩ := findSymbol_le (c := env.cursor q) hq hfound
      exact commitSymbol_ends hcalls _ v hs hps hstop
    · refine (endsWith_position hq).bind ?_
      rintro position r - hr ⟨rfl, rfl⟩
      exact report_fail_ends _ _ hr
  | symbolOf table t =>
    refine (expectToken_ends hcalls hr rfl hp).bind ?_
    rintro stop q - hq ⟨rfl, hps, hstop⟩
    refine (endsWith_position hq).bind ?_
    rintro position r - hr ⟨rfl, rfl⟩
    obtain ⟨v?, hv?⟩ := findSymbolTo_cases table hps hstop
    rw [hv?]
    refine (endsWith_lift hr).bind ?_
    rintro w? q - - ⟨rfl, rfl⟩
    split
    · next v => exact commitSymbol_ends hcalls _ v hs hps hstop
    · exact refuseSymbol_ends _ hps hstop
  | symbolIdentifier table leading trailing =>
    refine (endsWith_position hp).bind ?_
    rintro position q - hq ⟨rfl, rfl⟩
    obtain ⟨found, heq, hfound⟩ := findKeyword_cases table trailing hq
    rw [heq]
    refine (endsWith_lift hq).bind ?_
    rintro f r - hr' ⟨rfl, rfl⟩
    split
    · next v stop =>
      obtain ⟨hps, hstop⟩ := hfound v stop rfl
      exact commitSymbol_ends hcalls _ v hs hps hstop
    · refine (expectToken_ends hcalls hr rfl hr').bind ?_
      rintro stop r' - - ⟨rfl, hps, hstop⟩
      exact refuseSymbol_ends _ hps hstop
  | seq first second =>
    exact andThen_ends hcalls (hpart second (by simp [Rule.parts]))
      (hcalls.parse (hpart first (by simp [Rule.parts])) hp)
  | branch condition rest =>
    exact andThen_ends hcalls (hpart rest (by simp [Rule.parts]))
      (hcalls.parse (hpart condition (by simp [Rule.parts])) hp)
  | choice first second =>
    refine (hcalls.choice hr hp).bind hp ?_ fun commit h => h
    refine (endsWith_position hp).bind ?_
    rintro position q - hq ⟨rfl, rfl⟩
    exact report_fail_ends _ _ hq
  | opt r =>
    exact (hcalls.attempt (hpart r (by simp [Rule.parts])) hp).bind hp (endsWith_pure hp trivial)
      fun commit h => h
  | list item =>
    have hi := hpart item (by simp [Rule.parts])
    exact listFrom_ends hcalls hi (hcalls.parse hi hp)
  | listOpt item =>
    exact (moreItems_ends hcalls (hpart item (by simp [Rule.parts])) _ hp).bind
      fun _ _ _ hq _ => endsWith_pure hq trivial
  | listSep item separator =>
    obtain ⟨text, rfl, htext⟩ := Rule.exists_text_of_isText (hr.paced _ (Rule.mem_inside_self _))
    have hi := hpart item (by simp [Rule.parts])
    have hseparator := hpart (.token (.literal text)) (by simp [Rule.parts])
    exact (hcalls.parse hi hp).bind fun _ _ _ hq _ =>
      (separatedItems_ends hcalls htext hi hseparator _ hq).bind
        fun _ _ _ ht _ => endsWith_pure ht trivial
  | listTrailing item separator =>
    obtain ⟨text, rfl, htext⟩ := Rule.exists_text_of_isText (hr.paced _ (Rule.mem_inside_self _))
    have hi := hpart item (by simp [Rule.parts])
    have hseparator := hpart (.token (.literal text)) (by simp [Rule.parts])
    exact (hcalls.parse hi hp).bind fun _ _ _ hq _ =>
      (trailedItems_ends hcalls htext hi hseparator _ hq).bind
        fun _ _ _ ht _ => endsWith_pure ht trivial
  | times count item =>
    have hi := hpart item (by simp [Rule.parts])
    refine EndsWith.bind (ends_replicate (fun c q hq => ?_) count _ hp)
      fun _ _ _ hq _ => endsWith_pure hq trivial
    exact (hcalls.parse hi hq).bind fun _ _ _ ht _ => endsWith_pure ht trivial
  | production number | recurse number =>
    exact inProduction_ends hcalls _ hs hp (hcalls.parse (hr.production hgrammar rfl) hp)
  | recover r => exact (hcalls.parse (hpart r (by simp [Rule.parts])) hp).orDefault _
  | scopeWhitespace =>
    exact (skipScopeWhitespace_ends hcalls hs hp).bind fun _ _ _ hq _ => endsWith_pure hq trivial
  | whitespace r =>
    exact (skipWith_ends hcalls (hpart r (by simp [Rule.parts])).insideWhitespace hp).bind
      fun _ _ _ hq _ => endsWith_pure hq trivial
  | noWhitespace r =>
    exact thenSkip_ends hcalls hs
      (hcalls.parse (hpart r (by simp [Rule.parts])).withoutAuto hp)
  | never => exact endsWith_pure hp trivial
  | fail message =>
    refine (endsWith_position hp).bind ?_
    rintro position q - hq ⟨rfl, rfl⟩
    exact report_fail_ends _ _ hq
  | warn message =>
    exact endsWith_of_eq (o := ⟨some [], p,
      [.error ⟨.custom message, ⟨p, p⟩, scope.production⟩]⟩) rfl (Nat.le_refl p) hp
      fun _ _ => trivial
  | context => exact endsWith_pure hp trivial
  | emit kind width =>
    refine (endsWith_position hp).bind ?_
    rintro position q - hq ⟨rfl, rfl⟩
    exact (passToken_ends kind (by omega) (Nat.min_le_left _ _)).bind
      fun _ _ _ ht _ => endsWith_pure ht trivial

/-! ## All attempts -/

theorem endsAttempt_of_token {t : Token} {commit : Nat → Commit}
    (hr : env.Ready ranks r scope (n + 1)) (ht : r.token? = some t) (hp : p ≤ env.stop)
    (hcommit : ∀ stop, p ≤ stop → stop ≤ env.stop → env.Ends (commit stop scope) p) :
    env.EndsAttempt (fun position => do
      match ← env.matchToken calls t position with
      | .ok stop => return some (commit stop)
      | .error _ => return none) scope p := by
  obtain ⟨m, hm, hw⟩ := matchToken_ends hcalls hr ht hp
  simp only [EndsAttempt, hm, bind, Except.bind, pure, Except.pure]
  cases m with
  | error f => exact ⟨none, rfl, fun _ h => nomatch h⟩
  | ok stop => exact ⟨_, rfl, fun _ h => Option.some.inj h ▸ hcommit stop hw.1 hw.2⟩

omit hcalls in
/-- An attempt that leads on to more than the one it is made from. -/
theorem EndsAttempt.map {a : Attempt} {scope' : Scope} {more : Commit → Commit}
    (ha : env.EndsAttempt a scope' p)
    (hmore : ∀ commit, env.Ends (commit scope') p → env.Ends (more commit scope) p) :
    env.EndsAttempt (fun position => do return (← a position).map more) scope p := by
  obtain ⟨commit?, hcommit?, hcommit⟩ := ha
  simp only [EndsAttempt, hcommit?, pure, Except.pure]
  cases commit? with
  | none => exact ⟨none, rfl, fun _ h => nomatch h⟩
  | some commit =>
    exact ⟨_, rfl, fun _ h => Option.some.inj h ▸ hmore commit (hcommit commit rfl)⟩

omit hcalls in
/-- An attempt that is made where another one does not apply. -/
theorem EndsAttempt.orElse {a b : Attempt} (ha : env.EndsAttempt a scope p)
    (hb : env.EndsAttempt b scope p) :
    env.EndsAttempt (fun position => do
      match ← a position with
      | some commit => return some commit
      | none => b position) scope p := by
  obtain ⟨commit?, hcommit?, hcommit⟩ := ha
  simp only [EndsAttempt, hcommit?, pure, Except.pure]
  cases commit? with
  | none => exact hb
  | some commit => exact ⟨_, rfl, hcommit⟩

theorem attemptRule_ends (hgrammar : env.grammar.Ranked ranks)
    (hr : env.Ready ranks r scope (n + 1)) (hp : p ≤ env.stop) :
    env.EndsAttempt (env.attemptRule calls r) scope p := by
  have hs := hr.scopeReady
  have hpart := fun s (h : s ∈ r.parts) => hr.part h
  cases r with
  | token t =>
    exact endsAttempt_of_token hcalls hr rfl hp fun _ hps hstop =>
      (commitToken_ends hcalls t hs hps hstop).ends
  | capture t =>
    exact endsAttempt_of_token hcalls hr rfl hp fun _ hps hstop =>
      commitCapture_ends hcalls t hs hps hstop
  | integer type radix =>
    exact endsAttempt_of_token hcalls hr rfl hp fun _ hps hstop =>
      commitInteger_ends hcalls type radix hs hps hstop
  | position => exact ⟨_, rfl, fun _ h => Option.some.inj h ▸ hcalls.position hs.fuel hp⟩
  | symbol table =>
    cases hfound : env.findSymbol table (env.cursor p) with
    | none => exact ⟨none, by simp only [attemptRule, hfound]; rfl, fun _ h => nomatch h⟩
    | some found =>
      obtain ⟨hps, hstop⟩ := findSymbol_le (c := env.cursor p) hp hfound
      refine ⟨_, by simp only [attemptRule, hfound]; rfl, fun _ h => ?_⟩
      exact Option.some.inj h ▸ commitSymbol_ends hcalls _ _ hs hps hstop
  | symbolOf table t =>
    obtain ⟨m, hm, hw⟩ := matchToken_ends hcalls hr rfl hp
    simp only [EndsAttempt, attemptRule, hm, bind, Except.bind, pure, Except.pure]
    cases m with
    | error f => exact ⟨none, rfl, fun _ h => nomatch h⟩
    | ok stop =>
      obtain ⟨v?, hv?⟩ := findSymbolTo_cases table hw.1 hw.2
      simp only [hv?]
      cases v? with
      | none => exact ⟨none, rfl, fun _ h => nomatch h⟩
      | some v =>
        exact ⟨_, rfl, fun _ h => Option.some.inj h ▸ commitSymbol_ends hcalls _ v hs hw.1 hw.2⟩
  | symbolIdentifier table leading trailing =>
    obtain ⟨found, heq, hfound⟩ := findKeyword_cases table trailing hp
    simp only [EndsAttempt, attemptRule, heq, pure, Except.pure]
    cases found with
    | none => exact ⟨none, rfl, fun _ h => nomatch h⟩
    | some found =>
      obtain ⟨hps, hstop⟩ := hfound found.1 found.2 rfl
      exact ⟨_, rfl, fun _ h => Option.some.inj h ▸ commitSymbol_ends hcalls _ _ hs hps hstop⟩
  | branch condition rest =>
    exact (hcalls.attempt (hpart condition (by simp [Rule.parts])) hp).map fun _ hcommit =>
      andThen_ends hcalls (hpart rest (by simp [Rule.parts])) hcommit
  | choice first second =>
    exact (hcalls.attempt (hpart first (by simp [Rule.parts])) hp).orElse
      (hcalls.attempt (hpart second (by simp [Rule.parts])) hp)
  | list item =>
    have hi := hpart item (by simp [Rule.parts])
    exact (hcalls.attempt hi hp).map fun _ hcommit => listFrom_ends hcalls hi hcommit
  | production number =>
    exact (hcalls.attempt (hr.production hgrammar rfl) hp).map fun _ hcommit =>
      inProduction_ends hcalls _ hs hp hcommit
  | recover r =>
    exact (hcalls.attempt (hpart r (by simp [Rule.parts])) hp).map fun _ hcommit =>
      hcommit.orDefault _
  | noWhitespace r =>
    exact (hcalls.attempt (hpart r (by simp [Rule.parts])).withoutAuto hp).map fun _ hcommit =>
      thenSkip_ends hcalls hs hcommit
  | seq | opt | listOpt | listSep | listTrailing | times | recurse | scopeWhitespace | whitespace
  | never | fail | warn | context | emit => exact ⟨none, rfl, fun _ h => nomatch h⟩

end

/-! ## The interpreter -/

section
variable {ranks : Nat → Nat} {n : Nat} (hgrammar : env.grammar.Ranked ranks)
  (hsource : env.stop ≤ env.source.size)
include hgrammar hsource

/-- All rules that are ready end. -/
theorem endsBy (n : Nat) : env.EndsBy ranks (env.calls n) n := by
  induction n with
  | zero =>
    have hzero : ∀ {r scope}, ¬ env.Ready ranks r scope 0 := fun h => by
      have hfuel := h.fuel
      omega
    refine ⟨fun hr _ => absurd hr hzero, fun hr _ => absurd hr hzero, fun hfuel _ => ?_,
      fun {r s} _ _ hr _ => ?_, fun _ hr _ => absurd hr hzero, rfl, hsource⟩
    · omega
    · have hfuel := hr.fuel
      have hheight := Rule.height_pos ranks (.choice r s)
      omega
  | succ n ih =>
    refine ⟨fun hr hp => parseRule_ends ih hgrammar hr hp,
      fun hr hp => attemptRule_ends ih hgrammar hr hp, fun _ hp => ?_, fun {r s} _ _ hr hp => ?_,
      fun {text} _ p htext hr hp => ?_, rfl, hsource⟩
    · exact endsWith_of_eq (o := ⟨some [.pos _], _, [.token .position ⟨_, _⟩]⟩) rfl
        (Nat.le_refl _) hp fun _ _ => trivial
    · have hfuel := hr.fuel
      rw [Rule.height] at hfuel
      have hfirst : env.Ready ranks r _ n := ⟨fun t ht => hr.paced t
        (Rule.mem_inside_of_part (by simp [Rule.parts]) ht), hr.whitespace, by omega⟩
      have hsecond : env.Ready ranks s _ n := ⟨fun t ht => hr.paced t
        (Rule.mem_inside_of_part (by simp [Rule.parts]) ht), hr.whitespace, by omega⟩
      exact (ih.attempt hfirst hp).orElse (ih.attempt hsecond hp)
    · have hwithin := matchLiteral_within (c := env.cursor p) hp text
      have hmatch : env.matchToken (env.calls n) (.literal text) p =
        .ok (matchLiteral text (env.cursor p)) := rfl
      show ∃ commit?, env.attempt (n + 1) (.token (.literal text)) p = .ok commit? ∧ _
      rw [attempt_succ]
      simp only [attemptRule, hmatch, bind, Except.bind, pure, Except.pure]
      cases hliteral : matchLiteral text (env.cursor p) with
      | error f =>
        refine ⟨none, rfl, fun _ h => ?_⟩
        cases h
      | ok stop =>
        rw [hliteral] at hwithin
        have hlt := lt_of_matchLiteral htext hliteral
        refine ⟨_, rfl, fun _ h => Option.some.inj h ▸ ?_⟩
        exact (commitToken_ends ih (.literal text) hr.scopeReady hwithin.1 hwithin.2).imp
          fun _ q hq => Nat.lt_of_lt_of_le hlt hq

end

end Environment

/-- A run of a ranked grammar is given enough fuel, and is never at fault. -/
theorem Grammar.Ranked.exists_run {g : Grammar} {ranks : Nat → Nat} (h : g.Ranked ranks)
    {root : Nat} (hroot : ranks root ≤ Scope.defaultMaxDepth) (source : Source)
    (options : Options) : ∃ o, g.run root source options = .ok o := by
  let env := g.environment source
  have hgrammar : env.grammar.Ranked ranks := ⟨h.height, h.paced⟩
  have hready : env.Ready ranks (.production root)
      (.outer options.state options.maxDepth .discard) (env.fuel options.maxDepth) := by
    refine ⟨fun s hs => ?_, fun _ hw => (nomatch hw), ?_⟩
    · rw [List.mem_singleton.1 hs]
      rfl
    · show ranks root + 1 + 0 + (source.size + 2) ≤
        (source.size + 2) * (env.grammar.size + 2) * (options.maxDepth + Scope.defaultMaxDepth + 2)
      have hlarge : (source.size + 2) * (Scope.defaultMaxDepth + 2) ≤
          (source.size + 2) * (env.grammar.size + 2) *
            (options.maxDepth + Scope.defaultMaxDepth + 2) :=
        Nat.mul_le_mul (Nat.le_mul_of_pos_right _ (by omega)) (by omega)
      rw [Nat.mul_add, Nat.mul_comm _ Scope.defaultMaxDepth] at hlarge
      simp only [Scope.defaultMaxDepth] at *
      omega
  obtain ⟨o, ho, -⟩ := (Environment.endsBy hgrammar (Nat.le_refl _) _).parse hready (Nat.zero_le _)
  exact ⟨o, ho⟩

end Phrase
