import Phrase.Proofs.Parse.Gives
import Phrase.Proofs.Parse.Guarded
import Phrase.Proofs.Parse.Reports

/-!
# Skipped whitespace

Skipping takes all there is: it ends where the whitespace does not apply any more, or where it
applies and stays, so skipping again does nothing (`Environment.settles_skipWith_again`).  Rules
that skip whitespace behind themselves end at such a place, and asking for it once more changes
nothing (`Environment.endAlike_scopeWhitespace`).
-/

namespace Phrase

namespace Parse

variable {α β : Type} {p q : Nat}

/-! ## Places -/

/-- Wherever a parse is started, if it succeeds, it has come to a place of this kind. -/
def LeadsTo (m : Parse α) (Place : Nat → Prop) : Prop :=
  ∀ p a q es, m p = .ok ⟨some a, q, es⟩ → Place q

section
variable {m : Parse α} {k : α → Parse β} {Place : Nat → Prop}

/-- The last one of some parses leads to where all of them lead. -/
theorem LeadsTo.behind (hk : ∀ a, (k a).LeadsTo Place) : (m >>= k).LeadsTo Place := by
  intro p b r es h
  obtain ⟨a, _, _, _, -, hnext, -⟩ := bind_some_cases h
  exact hk a _ _ _ _ hnext

theorem LeadsTo.andPure (hm : m.LeadsTo Place) (f : α → β) :
    (m >>= fun a => pure (f a)).LeadsTo Place := by
  intro p b r es h
  obtain ⟨a, _, _, _, ha, hnext, -⟩ := bind_some_cases h
  cases hnext
  exact hm _ _ _ _ ha

theorem leadsTo_fail : (fail : Parse α).LeadsTo Place := by
  intro p a q es h
  cases h

theorem leadsTo_exhausted : (halt .exhausted : Parse α).LeadsTo Place := by
  intro p a q es h
  cases h

end

/-! ## One token -/

/-- An answer whose tokens are replaced by one over all that has been passed. -/
def oneToken (kind : Bool → TokenKind) (p : Nat) (x : Except Halt (Outcome α)) :
    Except Halt (Outcome α) :=
  x.map fun o => ⟨o.result, o.position, o.events.filter Event.isError ++
    if p < o.position then [.token (kind o.result.isSome) ⟨p, o.position⟩] else []⟩

theorem asOneToken_apply (m : Parse α) (kind : Bool → TokenKind) (p : Nat) :
    m.asOneToken kind p = oneToken kind p (m p) := by
  unfold asOneToken
  cases m p <;> rfl

theorem oneToken_ne {kind : Bool → TokenKind} {x : Except Halt (Outcome α)} :
    oneToken kind p x ≠ .error .exhausted ↔ x ≠ .error .exhausted := by
  cases x with
  | error e => exact Iff.rfl
  | ok o => exact iff_of_true (fun h => nomatch h) (fun h => nomatch h)

theorem settles_asOneToken_iff {m : Nat → Parse α} {kind : Bool → TokenKind}
    {x : Except Halt (Outcome α)} :
    Settles (fun n => (m n).asOneToken kind) p x ↔ ∃ y, Settles m p y ∧ x = oneToken kind p y := by
  simp only [Settles, asOneToken_apply]
  constructor
  · rintro ⟨hx, n, rfl⟩
    exact ⟨_, ⟨oneToken_ne.1 hx, n, rfl⟩, rfl⟩
  · rintro ⟨y, ⟨hy, n, rfl⟩, rfl⟩
    exact ⟨oneToken_ne.2 hy, n, rfl⟩

/-- Two parses that settle on one answer end alike. -/
theorem EndAlike.of_settles {m m' : Nat → Parse α} {x : Except Halt (Outcome α)} (hm : Grows m)
    (hm' : Grows m') (h : Settles m p x) (h' : Settles m' p x) : EndAlike m m' p := by
  intro y
  constructor
  · intro hy
    rwa [hy.unique hm h]
  · intro hy
    rwa [hy.unique hm' h']

theorem bind_pure_self (m : Parse α) : (m >>= fun a => pure a) = m := by
  funext p
  refine (bind_pure_apply m id p).trans ?_
  cases m p with
  | error e => rfl
  | ok o =>
    show Except.ok (Outcome.mk _ _ _) = _
    rw [Option.map_id]
    rfl

end Parse

theorem filter_isError_eq_nil {es : List Event} (h : errorsOf es = []) :
    es.filter Event.isError = [] := by
  refine List.filter_eq_nil_iff.2 fun e he hisError => ?_
  cases e with
  | error e =>
    have hmem : e ∈ errorsOf es := List.mem_filterMap.2 ⟨.error e, he, rfl⟩
    exact List.ne_nil_of_mem hmem h
  | start | finish | cancel | token => cases hisError

theorem Grammar.strict_token {g : Grammar} {t : Token} : g.Strict (.token t) := by
  intro s hs
  cases hs with
  | refl => rfl
  | part hs => cases hs
  | production h | whitespace h => rcases h with h | h <;> cases h

/-- Whether a rule skips the whitespace behind all that it passes over. -/
def Rule.skipsBehind : Rule → Bool
  | .token _ | .capture _ | .integer _ _ | .symbol _ | .symbolOf _ _ | .symbolIdentifier _ _ _
  | .production _ | .recurse _ | .noWhitespace _ => true
  | _ => false

namespace Environment

open Parse

variable {env : Environment} {r w : Rule} {scope : Scope} {p q n : Nat} {es : List Event}

/-! ## Skipping again -/

/-- Where a loop has ended well, the item does not apply, or it applies and stays. -/
theorem Gathers.ends {items : List Taken} {x : Except Halt (Outcome Unit)}
    (h : env.Gathers w scope p items x) (hx : x = .ok ⟨some (), q, es⟩) :
    (∃ n, env.attempt n w q = .ok none) ∨
      ∃ outputs fs, env.FinishEnds w scope q (.ok ⟨some outputs, q, fs⟩) := by
  induction h generalizing es with
  | declined h =>
    cases hx
    exact .inl ⟨_, h⟩
  | untried | broken | failed => cases hx
  | stays h =>
    cases hx
    exact .inr ⟨_, _, h⟩
  | more _ _ _ ih =>
    obtain ⟨_, hbehind, -⟩ := behindEvents_eq_ok hx
    exact ih hbehind

/-- Behind skipped whitespace, skipping again passes over nothing and reports nothing. -/
theorem settles_skipBranch_again (hw : env.grammar.Strict w) (hq : q ≤ env.stop)
    (hscope : scope.whitespace = none)
    (h : Settles (fun n => skipBranch (env.calls n) w scope) p (.ok ⟨some (), q, es⟩)) :
    ∃ fs, errorsOf fs = [] ∧
      Settles (fun n => skipBranch (env.calls n) w scope) q (.ok ⟨some (), q, fs⟩) := by
  obtain ⟨items, hgathers⟩ := settles_skipBranch_iff.1 h
  rcases hgathers.ends rfl with ⟨n, hnone⟩ | ⟨outputs, fs, hstays⟩
  · exact ⟨[], rfl, settles_skipBranch_iff.2 ⟨_, .declined hnone⟩⟩
  · have hcount := (ends_reports hq (.inr hstays)).once
      ⟨hw, fun v hv => nomatch hscope.symm.trans hv⟩
    exact ⟨fs, List.length_eq_zero_iff.1 hcount, settles_skipBranch_iff.2 ⟨_, .stays hstays⟩⟩

theorem settles_skipWith_iff {x : Except Halt (Outcome Unit)} :
    Settles (fun n => skipWith (env.calls n) w scope) p x ↔
      ∃ y, Settles (fun n => skipBranch (env.calls n) w scope.insideWhitespace) p y ∧
        x = oneToken (fun skipped => if skipped then .whitespace else .error) p y :=
  settles_asOneToken_iff

theorem skipWith_within {o : Outcome Unit} (hp : p ≤ env.stop)
    (h : Settles (fun n => skipWith (env.calls n) w scope) p (.ok o)) :
    p ≤ o.position ∧ o.position ≤ env.stop := by
  obtain ⟨-, n, hn⟩ := h
  exact ((EventLaw.bounds env).skipWith_allows (EventLaw.keptBy _ n) trivial hp).within hn

/-- What skipping passes over is one token of whitespace, if it is anything. -/
theorem events_of_skipWith (hw : env.grammar.Strict w) (hp : p ≤ env.stop)
    (h : Settles (fun n => skipWith (env.calls n) w scope) p (.ok ⟨some (), q, es⟩)) :
    es = if p < q then [.token .whitespace ⟨p, q⟩] else [] := by
  obtain ⟨y, ⟨-, n, hn⟩, hy⟩ := settles_skipWith_iff.1 h
  have hscope : (EventLaw.strict env).AdmitsScope scope.insideWhitespace :=
    EventLaw.admitsScope_insideWhitespace
  have hallows := EventLaw.skipBranch_allows (EventLaw.keptBy _ n) hw hscope hp
  cases y with
  | error e => cases hy
  | ok o =>
    have hcount : (errorsOf o.events).length = errorCount o.result.isSome := hallows.held hn
    obtain ⟨result, position, fs⟩ := o
    cases hy
    rw [filter_isError_eq_nil (List.length_eq_zero_iff.1 hcount)]
    rfl

theorem settles_skipWith_again (hw : env.grammar.Strict w) (hq : q ≤ env.stop)
    (h : Settles (fun n => skipWith (env.calls n) w scope) p (.ok ⟨some (), q, es⟩)) :
    Settles (fun n => skipWith (env.calls n) w scope) q (.ok ⟨some (), q, []⟩) := by
  obtain ⟨y, hy, hx⟩ := settles_skipWith_iff.1 h
  cases y with
  | error e => cases hx
  | ok o =>
    obtain ⟨result, position, fs⟩ := o
    cases hx
    obtain ⟨gs, hgs, hagain⟩ := settles_skipBranch_again hw hq rfl hy
    refine settles_skipWith_iff.2 ⟨_, hagain, ?_⟩
    rw [oneToken, Except.map, filter_isError_eq_nil hgs, if_neg (Nat.lt_irrefl position)]
    rfl

/-! ## Rules that skip whitespace behind themselves -/

/-- Skipping the whitespace of the scope does nothing here. -/
def Skipped (env : Environment) (scope : Scope) (q : Nat) : Prop :=
  q ≤ env.stop → Settles (fun n => skipScopeWhitespace (env.calls n) scope) q (.ok ⟨some (), q, []⟩)

theorem refuseSymbol_leadsTo (kind : TokenKind) (stop : Nat) (Place : Nat → Prop) :
    (env.refuseSymbol kind stop scope).LeadsTo Place :=
  LeadsTo.behind fun _ => LeadsTo.behind fun _ => LeadsTo.behind fun _ => leadsTo_fail

section
variable (hs : ∀ w, scope.whitespace = some w → env.grammar.Strict w) (hauto : scope.auto = true)
include hs

theorem skipScopeWhitespace_leadsTo (n : Nat) :
    (skipScopeWhitespace (env.calls n) scope).LeadsTo (env.Skipped scope) := by
  intro p a q es h hq
  unfold skipScopeWhitespace at h ⊢
  cases hw : scope.whitespace with
  | none => exact settles_pure () q
  | some w =>
    rw [hw] at h
    exact settles_skipWith_again (hs w hw) hq (settles_of_ok h)

include hauto

theorem skipWhitespace_leadsTo (n : Nat) :
    (skipWhitespace (env.calls n) scope).LeadsTo (env.Skipped scope) := by
  rw [skipWhitespace, if_pos hauto]
  exact skipScopeWhitespace_leadsTo hs n

theorem finishToken_leadsTo (kind : TokenKind) (stop n : Nat) :
    (env.finishToken (env.calls n) kind stop scope).LeadsTo (env.Skipped scope) :=
  LeadsTo.behind fun _ => skipWhitespace_leadsTo hs hauto n

theorem commitCapture_leadsTo (t : Token) (stop n : Nat) :
    (env.commitCapture (env.calls n) t stop scope).LeadsTo (env.Skipped scope) :=
  LeadsTo.behind fun _ => (finishToken_leadsTo hs hauto t.kind stop n).andPure _

theorem commitInteger_leadsTo (type : IntegerType) (radix : Radix) (stop n : Nat) :
    (env.commitInteger (env.calls n) type radix stop scope).LeadsTo (env.Skipped scope) := by
  refine LeadsTo.behind fun _ => LeadsTo.behind fun digits => ?_
  split
  · exact (finishToken_leadsTo hs hauto .digits stop n).andPure _
  · exact LeadsTo.behind fun _ => LeadsTo.behind fun _ => leadsTo_fail

theorem inProduction_leadsTo (production : Production) (body : Commit) (n : Nat) :
    (inProduction (env.calls n) production scope body).LeadsTo (env.Skipped scope) := by
  unfold inProduction
  split
  · exact LeadsTo.behind fun _ => LeadsTo.behind fun _ => leadsTo_fail
  · exact LeadsTo.behind fun _ => (skipWhitespace_leadsTo hs hauto n).andPure _

/-- If such a rule has a result, it has come to where there is nothing to skip. -/
theorem parse_leadsTo (hr : r.skipsBehind = true) (n : Nat) :
    (env.parse n r scope).LeadsTo (env.Skipped scope) := by
  cases n with
  | zero => exact leadsTo_exhausted
  | succ n =>
    rw [parse_succ]
    cases r with
    | token t =>
      exact LeadsTo.behind fun stop => (finishToken_leadsTo hs hauto t.kind stop n).andPure _
    | capture t => exact LeadsTo.behind fun stop => commitCapture_leadsTo hs hauto t stop n
    | integer type radix =>
      exact LeadsTo.behind fun stop => commitInteger_leadsTo hs hauto type radix stop n
    | symbol table =>
      refine LeadsTo.behind fun found => ?_
      cases found with
      | some found => exact (finishToken_leadsTo hs hauto .identifier found.2 n).andPure _
      | none => exact LeadsTo.behind fun _ => LeadsTo.behind fun _ => leadsTo_fail
    | symbolOf table t =>
      refine LeadsTo.behind fun stop => LeadsTo.behind fun _ => LeadsTo.behind fun found => ?_
      cases found with
      | some v => exact (finishToken_leadsTo hs hauto t.kind stop n).andPure _
      | none => exact refuseSymbol_leadsTo t.kind stop _
    | symbolIdentifier table leading trailing =>
      refine LeadsTo.behind fun _ => LeadsTo.behind fun found => ?_
      cases found with
      | some found => exact (finishToken_leadsTo hs hauto .identifier found.2 n).andPure _
      | none => exact LeadsTo.behind fun stop => refuseSymbol_leadsTo .identifier stop _
    | production number | recurse number => exact inProduction_leadsTo hs hauto _ _ n
    | noWhitespace r => exact LeadsTo.behind fun _ => (skipWhitespace_leadsTo hs hauto n).andPure _
    | position | seq | branch | choice | opt | list | listOpt | listSep | listTrailing | times
    | recover | scopeWhitespace | whitespace | never | fail | warn | context | emit => cases hr

end

section
variable (hs : ∀ w, scope.whitespace = some w → env.grammar.Strict w) (hauto : scope.auto = true)
  (hr : r.skipsBehind = true) (hp : p ≤ env.stop)

theorem settles_scopeWhitespace (h : env.Skipped scope q) (hq : q ≤ env.stop) :
    Settles (fun n => env.parse n .scopeWhitespace scope) q (.ok ⟨some [], q, []⟩) := by
  obtain ⟨-, n, hn⟩ := h hq
  exact settles_of_ok (n := n + 1) (bind_of_quiet hn)

include hs hauto hr hp

/-- To ask for the whitespace behind such a rule changes nothing. -/
theorem endAlike_scopeWhitespace :
    EndAlike (fun n => andThen (env.calls n) (env.parse n r scope) .scopeWhitespace scope)
      (fun n => env.parse n r scope) p := by
  suffices hpure : EndAlike
      (fun n => andThen (env.calls n) (env.parse n r scope) .scopeWhitespace scope)
      (fun n => env.parse n r scope >>= fun outputs => pure outputs) p from
    hpure.trans (endAlike_of_eq fun n => congrFun (bind_pure_self _) p)
  have hws : ∀ outputs : Outputs, Grows fun n => env.parse n .scopeWhitespace scope >>=
      fun none => (pure (outputs ++ none) : Parse Outputs) :=
    fun _ => (grows_parse env _ scope).bind fun _ => grows_const _
  refine EndAlike.bind (grows_parse env r scope) (grows_parse env r scope) hws
    (fun _ => grows_const _) (.refl _ p) fun outputs q es h => ?_
  obtain ⟨-, hq⟩ : p ≤ q ∧ q ≤ env.stop := ParseEnds.within hp h
  have hskipped : env.Skipped scope q := by
    obtain ⟨-, n, hn⟩ := h
    exact parse_leadsTo hs hauto hr n _ _ _ _ hn
  have hquiet := (settles_scopeWhitespace hskipped hq).bind_some
    (k := fun _ none => (pure (outputs ++ none) : Parse Outputs)) (grows_parse env _ scope)
    (fun _ => grows_const _) (settles_pure (outputs ++ []) q)
  rw [List.append_nil] at hquiet
  exact EndAlike.of_settles (hws outputs) (grows_const _) hquiet (settles_pure outputs q)

theorem finishEnds_scopeWhitespace_iff {x : Except Halt (Outcome Outputs)} :
    env.FinishEnds (.branch r .scopeWhitespace) scope p x ↔ env.FinishEnds r scope p x := by
  have hparse := (endAlike_parse env (.branch r .scopeWhitespace) scope p).trans
    (endAlike_scopeWhitespace hs hauto hr hp)
  constructor
  · rintro ⟨hx, n, commit, hcommit, hn⟩
    cases n with
    | zero => cases hcommit
    | succ n =>
      obtain ⟨first, hfirst, -⟩ := map_some_cases hcommit
      exact (finishEnds_iff hfirst x).2 ((hparse x).1
        (FinishEnds.parseEnds ⟨hx, n + 1, commit, hcommit, hn⟩))
  · rintro ⟨hx, n, first, hfirst, hn⟩
    have hcommit : ∃ commit, env.attempt (n + 1) (.branch r .scopeWhitespace) p =
        .ok (some commit) := by
      rw [attempt_succ, attemptRule]
      exact ⟨_, congrArg (Functor.map _) hfirst⟩
    obtain ⟨commit, hcommit⟩ := hcommit
    exact (finishEnds_iff hcommit x).2 ((hparse x).2
      (FinishEnds.parseEnds ⟨hx, n, first, hfirst, hn⟩))

end

/-! ## Whitespace of one class -/

section
variable {us : List Nat} (k : AsciiClass)

theorem finishEnds_charClass {u : Nat} (h : env.Faces p (u :: us)) (hu : k.contains u = true) :
    env.FinishEnds (.token (.charClass k)) scope.insideWhitespace p
      (.ok ⟨some [], p + 1, [.token .charClass ⟨p, p + 1⟩]⟩) := by
  have hmatch : env.matchToken (env.calls 0) (.charClass k) p = .ok (.ok (p + 1)) :=
    congrArg Except.ok ((matchClass_units h k).trans (if_pos hu))
  have hstop : p + 1 ≤ env.stop := by
    rw [h.stop_eq, List.length_cons]
    omega
  refine ⟨fun h => (nomatch h), 1, env.commitToken (env.calls 0) (.charClass k) (p + 1), ?_, ?_⟩
  · rw [attempt_succ, attemptRule, hmatch]
    rfl
  · have htoken : env.finishToken (env.calls 0) .charClass (p + 1) scope.insideWhitespace p =
        .ok ⟨some (), p + 1, [.token .charClass ⟨p, p + 1⟩]⟩ :=
      bind_of_some_eq (passToken_eq .charClass hstop)
    exact bind_of_some_eq htoken

theorem attempt_charClass_none (h : env.Faces p us) (hus : us.head?.any k.contains = false) :
    env.attempt 1 (.token (.charClass k)) p = .ok none := by
  have hmatch : env.matchToken (env.calls 0) (.charClass k) p =
      .ok (.error (.at p (.expectedCharClass k.name))) := by
    refine congrArg Except.ok ((matchClass_units h k).trans (if_neg ?_))
    rw [hus]
    exact Bool.false_ne_true
  rw [attempt_succ, attemptRule, hmatch]
  rfl

/-- The units are taken one by one, up to the first one that is not in the class. -/
theorem exists_gathers_charClass (h : env.Faces p us) (scope : Scope) :
    ∃ items es, env.Gathers (.token (.charClass k)) scope.insideWhitespace p items
      (.ok ⟨some (), p + (us.takeWhile k.contains).length, es⟩) := by
  induction us generalizing p with
  | nil => exact ⟨[], [], .declined (attempt_charClass_none k h rfl)⟩
  | cons u us ih =>
    rw [List.takeWhile_cons]
    cases hu : k.contains u with
    | true =>
      obtain ⟨items, es, hmore⟩ := ih h.tail
      have hgathers := Gathers.more (finishEnds_charClass k h hu) (Nat.succ_ne_self p) hmore
      rw [if_pos rfl, List.length_cons, Nat.add_comm _ 1, ← Nat.add_assoc]
      exact ⟨_, _, hgathers⟩
    | false => exact ⟨[], [], .declined (attempt_charClass_none k h hu)⟩

theorem settles_skipWith_charClass (h : env.Faces p us) (scope : Scope) :
    Settles (fun n => skipWith (env.calls n) (.token (.charClass k)) scope) p
      (.ok ⟨some (), p + (us.takeWhile k.contains).length,
        if p < p + (us.takeWhile k.contains).length then
          [.token .whitespace ⟨p, p + (us.takeWhile k.contains).length⟩] else []⟩) := by
  obtain ⟨items, es, hgathers⟩ := exists_gathers_charClass k h scope
  have hskip := settles_skipWith_iff.2 ⟨_, settles_skipBranch_iff.2 ⟨items, hgathers⟩, rfl⟩
  rw [← events_of_skipWith Grammar.strict_token (h.stop_eq ▸ Nat.le_add_right _ _) hskip]
  exact hskip

end

/-! ## The theorem -/

/-- Skipping takes all there is, and what it takes is one token: skipping again does nothing.  So
where whitespace is skipped by itself, it changes nothing to ask for it behind a rule that skips it,
whether that rule is parsed or tried.  Of one class all units up to the first other one are
skipped. -/
theorem skipping_takes_all :
    (∀ (env : Environment) (w : Rule) (scope : Scope) (p q : Nat) (es : List Event),
      env.grammar.Strict w → p ≤ env.stop →
      Settles (fun n => skipWith (env.calls n) w scope) p (.ok ⟨some (), q, es⟩) →
      es = (if p < q then [.token .whitespace ⟨p, q⟩] else []) ∧
        Settles (fun n => skipWith (env.calls n) w scope) q (.ok ⟨some (), q, []⟩)) ∧
    (∀ (env : Environment) (r : Rule) (scope : Scope) (p : Nat) (x : Except Halt (Outcome Outputs)),
      (∀ w, scope.whitespace = some w → env.grammar.Strict w) → scope.auto = true →
      r.skipsBehind = true → p ≤ env.stop →
      (env.ParseEnds (.seq r .scopeWhitespace) scope p x ↔ env.ParseEnds r scope p x) ∧
      (env.ParseEnds (.branch r .scopeWhitespace) scope p x ↔ env.ParseEnds r scope p x) ∧
      (env.FinishEnds (.branch r .scopeWhitespace) scope p x ↔ env.FinishEnds r scope p x)) ∧
    ∀ (env : Environment) (k : AsciiClass) (scope : Scope) (p : Nat) (us : List Nat),
      env.Faces p us →
      Settles (fun n => skipWith (env.calls n) (.token (.charClass k)) scope) p
        (.ok ⟨some (), p + (us.takeWhile k.contains).length,
          if p < p + (us.takeWhile k.contains).length then
            [.token .whitespace ⟨p, p + (us.takeWhile k.contains).length⟩] else []⟩) := by
  refine ⟨fun env w scope p q es hw hp h => ?_, fun env r scope p x hs hauto hr hp => ?_,
    fun env k scope p us h => settles_skipWith_charClass k h scope⟩
  · exact ⟨events_of_skipWith hw hp h, settles_skipWith_again hw (skipWith_within hp h).2 h⟩
  · have hbehind := endAlike_scopeWhitespace hs hauto hr hp
    exact ⟨(endAlike_parse env (.seq r .scopeWhitespace) scope p).trans hbehind x,
      (endAlike_parse env (.branch r .scopeWhitespace) scope p).trans hbehind x,
      finishEnds_scopeWhitespace_iff hs hauto hr hp⟩

/-- A digit behind which there are a space, a comment and another space. -/
theorem skipping_takes_all_comment :
    let source : Source := ⟨.ascii, #[0x31, 0x20, 0x23, 0x61, 0x20, 0x32], by decide⟩
    let env : Environment := ⟨⟨#[], #[]⟩, source, 6⟩
    let w : Rule := .choice (.token (.charClass .space))
      (.branch (.token (.literal "#")) (.listOpt (.token (.charClass .alpha))))
    let scope : Scope := { Scope.silent with whitespace := some w }
    env.grammar.Strict w ∧ 1 ≤ env.stop ∧
    (∃ es, Settles (fun n => skipWith (env.calls n) w scope) 1 (.ok ⟨some (), 5, es⟩) ∧
      es = [.token .whitespace ⟨1, 5⟩] ∧
      Settles (fun n => skipWith (env.calls n) w scope) 5 (.ok ⟨some (), 5, []⟩)) ∧
    (∃ o, env.ParseEnds (.token (.charClass .digit)) scope 0 (.ok o) ∧ o.position = 5 ∧
      env.ParseEnds (.seq (.token (.charClass .digit)) .scopeWhitespace) scope 0 (.ok o)) ∧
    Settles (fun n => skipWith (env.calls n) (.token (.charClass .space)) scope) 1
      (.ok ⟨some (), 2, [.token .whitespace ⟨1, 2⟩]⟩) := by
  intro source env w scope
  obtain ⟨hagain, hbehind, hclass⟩ := skipping_takes_all
  have hw : env.grammar.Strict w := by
    refine Grammar.strict_of_isStrict (by decide +kernel) fun s hs => ?_
    have hlenient : w.outside.all (!·.isLenient) = true := by decide +kernel
    simpa using List.all_eq_true.1 hlenient s hs
  have hskip : (skipWith (env.calls 9) w scope).answers 1
      (fun o => o.result.isSome && o.position == 5) = true := by
    decide +kernel
  obtain ⟨⟨result, position, es⟩, hes, hcheck⟩ := Parse.exists_of_answers hskip
  rw [Bool.and_eq_true, Option.isSome_iff_exists, beq_iff_eq] at hcheck
  obtain ⟨⟨_, rfl⟩, rfl⟩ := hcheck
  have hdigit : (env.parse 9 (.token (.charClass .digit)) scope).answers 0 (·.position == 5) =
      true := by
    decide +kernel
  obtain ⟨o, ho, hposition⟩ := Parse.exists_of_answers hdigit
  have hends : env.ParseEnds (.token (.charClass .digit)) scope 0 (.ok o) := settles_of_ok ho
  have hbounds : 1 ≤ env.stop := by decide
  obtain ⟨hevents, hsecond⟩ := hagain env w scope 1 5 es hw hbounds (settles_of_ok hes)
  exact ⟨hw, hbounds, ⟨es, settles_of_ok hes, hevents, hsecond⟩,
    ⟨o, hends, beq_iff_eq.1 hposition, (hbehind env _ scope 0 _
      (fun v hv => Option.some.inj hv ▸ hw) rfl rfl (Nat.zero_le _)).1.2 hends⟩,
    hclass env .space scope 1 [0x20, 0x23, 0x61, 0x20, 0x32] rfl⟩

end Environment

end Phrase
