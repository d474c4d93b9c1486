import Phrase.Proofs.Parse.Separated

/-!
# Guarded repetition

A list takes up items as long as they apply, and stops behind one that has not moved on; whitespace
is skipped by the same loop, which then forgets the items.  What the loop does is told by the items
that it takes up and by what it meets with behind them (`Environment.settles_moreItems_iff`): the
items lie behind each other, all but the last one move on, and the answer is made of all of them in
their order, or of none (`Environment.guarded_repetition`).
-/

namespace Phrase

/-! ## Control -/

namespace Parse

variable {α β σ τ : Type} {p : Nat}

theorem pure_bind (a : α) (k : α → Parse β) : (pure a >>= k) = k a :=
  funext fun p => bind_of_quiet (pure_apply a p)

/-- What a loop's step says, with another state. -/
def renew (f : σ → τ) : ForInStep σ → ForInStep τ
  | .yield s => .yield (f s)
  | .done s => .done (f s)

/-- A loop may forget some of its state at every step or all at once. -/
theorem iterate_renew {step : σ → Parse (ForInStep σ)} {step' : τ → Parse (ForInStep τ)}
    (f : σ → τ) (hstep : ∀ s, step' (f s) = step s >>= fun y => pure (renew f y)) (fuel : Nat)
    (s : σ) : iterate step' fuel (f s) = iterate step fuel s >>= fun s => pure (f s) := by
  induction fuel generalizing s with
  | zero => rfl
  | succ fuel ih =>
    rw [iterate_succ, iterate_succ, hstep, bind_bind, bind_bind]
    refine congrArg (step s >>= ·) (funext fun y => ?_)
    rw [pure_bind]
    cases y with
    | yield t => exact ih t
    | done t => exact (pure_bind t fun t => pure (f t)).symm

/-- An answer with another result. -/
def withResult (f : α → β) (x : Except Halt (Outcome α)) : Except Halt (Outcome β) :=
  x.map fun o => ⟨o.result.map f, o.position, o.events⟩

theorem withResult_behindEvents (f : α → β) (es : List Event) (x : Except Halt (Outcome α)) :
    withResult f (behindEvents es x) = behindEvents es (withResult f x) := by
  cases x <;> rfl

theorem withResult_withResult {γ : Type} (f : β → γ) (g : α → β) (x : Except Halt (Outcome α)) :
    withResult f (withResult g x) = withResult (f ∘ g) x := by
  cases x with
  | error e => rfl
  | ok o =>
    show Except.ok (Outcome.mk _ _ _) = _
    rw [Option.map_map]
    rfl

theorem withResult_unit (f : Unit → Unit) (x : Except Halt (Outcome Unit)) :
    withResult f x = x := by
  cases x with
  | error e => rfl
  | ok o =>
    obtain ⟨result, q, es⟩ := o
    cases result <;> rfl

theorem bind_pure_apply (m : Parse α) (f : α → β) (p : Nat) :
    (m >>= fun a => pure (f a)) p = withResult f (m p) := by
  cases hm : m p with
  | error e => exact bind_of_error hm
  | ok o =>
    obtain ⟨result, q, es⟩ := o
    cases result with
    | none => exact bind_of_none hm
    | some a =>
      rw [bind_of_some_eq hm]
      show Except.ok (Outcome.mk _ _ (es ++ [])) = _
      rw [List.append_nil]
      rfl

theorem withResult_ne {f : α → β} {x : Except Halt (Outcome α)} :
    withResult f x ≠ .error .exhausted ↔ x ≠ .error .exhausted := by
  cases x with
  | error e => exact not_congr ⟨fun h => congrArg _ (Except.error.inj h), fun h => by rw [h]; rfl⟩
  | ok o => exact iff_of_true (fun h => nomatch h) (fun h => nomatch h)

/-- A parse that only changes the result of another one settles on that one's answers. -/
theorem settles_withResult_iff {m : Nat → Parse α} {f : α → β} {x : Except Halt (Outcome β)} :
    Settles (fun n => m n >>= fun a => pure (f a)) p x ↔
      ∃ y, Settles m p y ∧ x = withResult f y := by
  constructor
  · rintro ⟨hx, n, hn⟩
    have hmap : withResult f (m n p) = x := (bind_pure_apply (m n) f p).symm.trans hn
    subst hmap
    exact ⟨_, ⟨withResult_ne.1 hx, n, rfl⟩, rfl⟩
  · rintro ⟨y, ⟨hy, n, rfl⟩, rfl⟩
    exact ⟨withResult_ne.2 hy, n, bind_pure_apply (m n) f p⟩

end Parse

namespace Environment

open Parse

variable {env : Environment} {item : Rule} {scope : Scope} {p q n : Nat} {c : Container}

/-! ## The items of a loop -/

/-- An item that has been taken up: where it starts and where it ends, what it outputs and what it
has emitted. -/
structure Taken where
  start : Nat
  stop : Nat
  outputs : Outputs
  events : List Event

/-- How a loop goes on from `p`: the items that it takes up, and what it answers apart from what it
has collected.  Every clause is one way to leave the loop or to go on with it. -/
inductive Gathers (env : Environment) (item : Rule) (scope : Scope) :
    Nat → List Taken → Except Halt (Outcome Unit) → Prop where
  /-- No item applies. -/
  | declined {p n : Nat} : env.attempt n item p = .ok none →
      Gathers env item scope p [] (.ok ⟨some (), p, []⟩)
  /-- To try the item is a fault. -/
  | untried {p n : Nat} {e : Halt} : e ≠ .exhausted → env.attempt n item p = .error e →
      Gathers env item scope p [] (.error e)
  /-- The item applies and meets with a fault. -/
  | broken {p : Nat} {e : Halt} : env.FinishEnds item scope p (.error e) →
      Gathers env item scope p [] (.error e)
  /-- The item applies and fails. -/
  | failed {p q : Nat} {es : List Event} : env.FinishEnds item scope p (.ok ⟨none, q, es⟩) →
      Gathers env item scope p [] (.ok ⟨none, q, es⟩)
  /-- The item stays where it is. -/
  | stays {p : Nat} {outputs : Outputs} {es : List Event} :
      env.FinishEnds item scope p (.ok ⟨some outputs, p, es⟩) →
      Gathers env item scope p [⟨p, p, outputs, es⟩] (.ok ⟨some (), p, es⟩)
  /-- The item moves on. -/
  | more {p q : Nat} {outputs : Outputs} {es : List Event} {items : List Taken}
      {x : Except Halt (Outcome Unit)} :
      env.FinishEnds item scope p (.ok ⟨some outputs, q, es⟩) → q ≠ p →
      Gathers env item scope q items x →
      Gathers env item scope p (⟨p, q, outputs, es⟩ :: items) (behindEvents es x)

/-- What has been collected behind these items. -/
def Taken.collect (scope : Scope) (c : Container) (items : List Taken) : Container :=
  items.foldl (fun c i => scope.value.push c i.outputs) c

/-- An answer with what has been collected. -/
def collected (scope : Scope) (c : Container) (items : List Taken) :
    Except Halt (Outcome Unit) → Except Halt (Outcome Container) :=
  withResult fun _ => Taken.collect scope c items

/-! ## The loop -/

/-- Skipping is the loop of a list without a list. -/
theorem skipBranch_eq (calls : Calls) (w : Rule) (scope : Scope) (c : Container) :
    skipBranch calls w scope = moreItems calls w scope c >>= fun _ => pure () := by
  refine @iterate_renew _ _ (itemStep calls w scope) _ (fun _ => ()) (fun c => ?_) calls.fuel c
  rw [itemStep, bind_bind]
  refine congrArg (look (calls.attempt w) >>= ·) (funext fun commit? => ?_)
  cases commit? with
  | none => exact (pure_bind _ _).symm
  | some commit =>
    rw [takeItem, bind_bind]
    refine congrArg (Parse.position >>= ·) (funext fun before => ?_)
    rw [bind_bind]
    refine congrArg (commit scope >>= ·) (funext fun outputs => ?_)
    rw [takeUp, bind_bind]
    refine congrArg (Parse.position >>= ·) (funext fun q => ?_)
    split
    · exact (pure_bind _ _).symm
    · exact (pure_bind _ _).symm

theorem itemStep_of_none (h : env.attempt n item p = .ok none) (scope : Scope) (c : Container) :
    itemStep (env.calls n) item scope c p = .ok ⟨some (.done c), p, []⟩ :=
  bind_of_quiet (look_eq h)

theorem itemStep_of_some {commit : Commit} (h : env.attempt n item p = .ok (some commit))
    (scope : Scope) (c : Container) :
    itemStep (env.calls n) item scope c p = (commit scope >>= takeUp scope p c) p :=
  (bind_of_quiet (look_eq h)).trans (bind_of_quiet (m := Parse.position) rfl)

/-- What the loop answers is told by what it gathers. -/
theorem exists_gathers_of_iterate {fuel : Nat} {x : Except Halt (Outcome Container)}
    (hx : x ≠ .error .exhausted)
    (h : iterate (itemStep (env.calls n) item scope) fuel c p = x) :
    ∃ items y, env.Gathers item scope p items y ∧ x = collected scope c items y := by
  induction fuel generalizing c p x with
  | zero => exact absurd h.symm hx
  | succ fuel ih =>
    rw [iterate_succ] at h
    cases hattempt : env.attempt n item p with
    | error e =>
      have hstep : itemStep (env.calls n) item scope c p = .error e :=
        bind_of_error (look_of_error hattempt)
      rw [bind_of_error hstep] at h
      subst h
      exact ⟨[], .error e, .untried (fun he => hx (congrArg _ he)) hattempt, rfl⟩
    | ok commit? =>
      cases commit? with
      | none =>
        rw [bind_of_quiet (itemStep_of_none hattempt scope c)] at h
        exact ⟨[], _, .declined hattempt, h.symm⟩
      | some commit =>
        have hstep := itemStep_of_some hattempt scope c
        cases hcommit : commit scope p with
        | error e =>
          rw [bind_of_error hcommit] at hstep
          rw [bind_of_error hstep] at h
          subst h
          exact ⟨[], .error e, .broken ⟨fun he => hx (congrArg _ (Except.error.inj he)), n, commit,
            hattempt, hcommit⟩, rfl⟩
        | ok o =>
          have hends : env.FinishEnds item scope p (.ok o) :=
            ⟨fun he => (nomatch he), n, commit, hattempt, hcommit⟩
          obtain ⟨result, q, es⟩ := o
          cases result with
          | none =>
            rw [bind_of_none hcommit] at hstep
            rw [bind_of_none hstep] at h
            exact ⟨[], _, .failed hends, h.symm⟩
          | some outputs =>
            rw [bind_of_some_eq hcommit, takeUp_eq] at hstep
            by_cases hq : q = p
            · subst hq
              rw [if_pos rfl] at hstep
              rw [bind_of_some_eq hstep, List.append_nil] at h
              subst h
              refine ⟨_, _, .stays hends, ?_⟩
              show Except.ok (Outcome.mk _ _ (es ++ [])) = _
              rw [List.append_nil]
              rfl
            · rw [if_neg hq] at hstep
              rw [bind_of_some_eq hstep, List.append_nil] at h
              subst h
              obtain ⟨items, y, hy, hanswer⟩ := ih (behindEvents_ne.1 hx) rfl
              refine ⟨_, _, .more hends hq hy, ?_⟩
              rw [collected, withResult_behindEvents]
              exact congrArg _ hanswer

/-- What a step makes of an item that applies. -/
theorem settles_itemStep_of_finishEnds {y : Except Halt (Outcome Outputs)}
    (h : env.FinishEnds item scope p y) (c : Container) :
    ∀ x, Settles (fun n => itemStep (env.calls n) item scope c) p x ↔
      Settles (fun n => env.parse n item scope >>= takeUp scope p c) p x := by
  obtain ⟨-, n, commit, hcommit, -⟩ := h
  exact endAlike_itemStep hcommit scope c

theorem settles_itemStep_of_some {outputs : Outputs}
    {es : List Event} (h : env.FinishEnds item scope p (.ok ⟨some outputs, q, es⟩))
    (c : Container) :
    Settles (fun n => itemStep (env.calls n) item scope c) p (.ok ⟨some (if q = p then
      .done (scope.value.push c outputs) else .yield (scope.value.push c outputs)), q, es⟩) := by
  have hitem := Settles.bind_some (k := fun _ => takeUp scope p c) (grows_parse env item scope)
    (fun _ => grows_const _) h.parseEnds (settles_of_ok (n := 0) (takeUp_eq scope p c outputs q))
  rw [behindEvents, Except.map, List.append_nil] at hitem
  exact (settles_itemStep_of_finishEnds h c _).2 hitem

theorem Gathers.settles {items : List Taken} {y : Except Halt (Outcome Unit)}
    (h : env.Gathers item scope p items y) (c : Container) :
    Settles (fun n => moreItems (env.calls n) item scope c) p (collected scope c items y) := by
  have hgrows := grows_itemStep env item scope
  induction h generalizing c with
  | declined h => exact settles_iterate_of_done hgrows (settles_itemStep_declined h scope c)
  | @untried p n e he h =>
    have hstep : Settles (fun n => itemStep (env.calls n) item scope c) p (.error e) :=
      ⟨fun h => he (Except.error.inj h), n, bind_of_error (look_of_error h)⟩
    exact (endAlike_iterate hgrows c p _).2 hstep.bind_error
  | broken h =>
    have hstep := (settles_itemStep_of_finishEnds h c _).2 (Settles.bind_error h.parseEnds)
    exact (endAlike_iterate hgrows c _ _).2 hstep.bind_error
  | failed h =>
    have hstep := (settles_itemStep_of_finishEnds h c _).2 (Settles.bind_none h.parseEnds)
    exact (endAlike_iterate hgrows c _ _).2 hstep.bind_none
  | stays h =>
    have hstep := settles_itemStep_of_some h c
    rw [if_pos rfl] at hstep
    exact settles_iterate_of_done hgrows hstep
  | more h hne _ ih =>
    have hstep := settles_itemStep_of_some h c
    rw [if_neg hne] at hstep
    rw [collected, withResult_behindEvents]
    exact settles_iterate_of_yield hgrows hstep (ih _)

/-- The answers of the loop are what it gathers. -/
theorem settles_moreItems_iff {x : Except Halt (Outcome Container)} :
    Settles (fun n => moreItems (env.calls n) item scope c) p x ↔
      ∃ items y, env.Gathers item scope p items y ∧ x = collected scope c items y := by
  constructor
  · rintro ⟨hx, n, hn⟩
    exact exists_gathers_of_iterate hx hn
  · rintro ⟨items, y, hy, rfl⟩
    exact hy.settles c

/-- The answers of skipping are the same without the items. -/
theorem settles_skipBranch_iff {y : Except Halt (Outcome Unit)} :
    Settles (fun n => skipBranch (env.calls n) item scope) p y ↔
      ∃ items, env.Gathers item scope p items y := by
  simp only [skipBranch_eq _ _ _ .nothing, settles_withResult_iff, settles_moreItems_iff]
  constructor
  · rintro ⟨_, ⟨items, z, hz, rfl⟩, rfl⟩
    refine ⟨items, ?_⟩
    rw [collected, withResult_withResult, withResult_unit]
    exact hz
  · rintro ⟨items, hy⟩
    refine ⟨_, ⟨items, y, hy, rfl⟩, ?_⟩
    rw [collected, withResult_withResult, withResult_unit]

/-! ## What is known of the items -/

/-- Where items that have been taken up from `p` on have led. -/
def Taken.reached : Nat → List Taken → Nat
  | p, [] => p
  | _, i :: items => reached i.stop items

/-- Items that lie behind each other from `p` on: each of them applies where the one in front of it
has ended, and ends as it says. -/
def Row (env : Environment) (item : Rule) (scope : Scope) : Nat → List Taken → Prop
  | _, [] => True
  | p, i :: items => i.start = p ∧
      env.FinishEnds item scope p (.ok ⟨some i.outputs, i.stop, i.events⟩) ∧
      env.Row item scope i.stop items

/-- A repetition from `p` on: the items that it has taken up, and its answer apart from what it has
collected. -/
structure Gathering (env : Environment) (item : Rule) (scope : Scope) (p : Nat)
    (items : List Taken) (x : Except Halt (Outcome Unit)) : Prop where
  row : env.Row item scope p items
  /-- All items but the last one move on. -/
  moves : ∀ i ∈ items.dropLast, i.start < i.stop
  /-- A success is made of the items and nothing else.  No other item applies behind them, unless
  the last one has stayed where it was. -/
  matched : ∀ q es, x = .ok ⟨some (), q, es⟩ →
    q = Taken.reached p items ∧ es = items.flatMap Taken.events ∧
      ((∃ n, env.attempt n item q = .ok none) ∨ ∃ i, items.getLast? = some i ∧ i.stop = i.start)
  /-- A failure is that of one more item. -/
  failed : ∀ q es, x = .ok ⟨none, q, es⟩ →
    ∃ fs, env.FinishEnds item scope (Taken.reached p items) (.ok ⟨none, q, fs⟩) ∧
      es = items.flatMap Taken.events ++ fs
  /-- And so is a fault. -/
  faulty : ∀ e, x = .error e → (∃ n, env.attempt n item (Taken.reached p items) = .error e) ∨
    env.FinishEnds item scope (Taken.reached p items) (.error e)

theorem behindEvents_eq_ok {α : Type} {es fs : List Event} {x : Except Halt (Outcome α)}
    {result : Option α} (h : behindEvents es x = .ok ⟨result, q, fs⟩) :
    ∃ gs, x = .ok ⟨result, q, gs⟩ ∧ fs = es ++ gs := by
  cases x with
  | error e => cases h
  | ok o =>
    obtain ⟨result, q, gs⟩ := o
    cases h
    exact ⟨gs, rfl, rfl⟩

theorem behindEvents_eq_error {α : Type} {es : List Event} {x : Except Halt (Outcome α)} {e : Halt}
    (h : behindEvents es x = .error e) : x = .error e := by
  cases x with
  | error e => exact congrArg _ (Except.error.inj h)
  | ok o => cases h

section
variable {items : List Taken} {x : Except Halt (Outcome Unit)}

theorem Gathers.gathering (h : env.Gathers item scope p items x) (hp : p ≤ env.stop) :
    env.Gathering item scope p items x := by
  induction h with
  | declined h => exact {
      row := trivial
      moves := fun i hi => nomatch hi
      matched := fun q es hx => by
        cases hx
        exact ⟨rfl, rfl, .inl ⟨_, h⟩⟩
      failed := fun q es hx => nomatch hx
      faulty := fun e hx => nomatch hx }
  | untried _ h => exact {
      row := trivial
      moves := fun i hi => nomatch hi
      matched := fun q es hx => nomatch hx
      failed := fun q es hx => nomatch hx
      faulty := fun e hx => .inl ⟨_, h.trans (congrArg _ (Except.error.inj hx))⟩ }
  | broken h => exact {
      row := trivial
      moves := fun i hi => nomatch hi
      matched := fun q es hx => nomatch hx
      failed := fun q es hx => nomatch hx
      faulty := fun e hx => .inr (by rwa [← Except.error.inj hx]) }
  | failed h => exact {
      row := trivial
      moves := fun i hi => nomatch hi
      matched := fun q es hx => nomatch hx
      failed := fun q es hx => by
        cases hx
        exact ⟨_, h, rfl⟩
      faulty := fun e hx => nomatch hx }
  | stays h => exact {
      row := ⟨rfl, h, trivial⟩
      moves := fun i hi => nomatch hi
      matched := fun q es hx => by
        cases hx
        exact ⟨rfl, (List.append_nil _).symm, .inr ⟨_, rfl, rfl⟩⟩
      failed := fun q es hx => nomatch hx
      faulty := fun e hx => nomatch hx }
  | @more p q outputs es items x h hne hmore ih =>
    obtain ⟨hpq, hq⟩ : p ≤ q ∧ q ≤ env.stop := h.parseEnds.within hp
    have hrest := ih hq
    exact {
      row := ⟨rfl, h, hrest.row⟩
      moves := fun i hi => by
        cases items with
        | nil => cases hi
        | cons j items =>
          rcases List.mem_cons.1 hi with rfl | hi
          · exact Nat.lt_of_le_of_ne hpq (Ne.symm hne)
          · exact hrest.moves i hi
      matched := fun r fs hx => by
        obtain ⟨gs, hbehind, rfl⟩ := behindEvents_eq_ok hx
        obtain ⟨hr, rfl, hlast⟩ := hrest.matched r gs hbehind
        refine ⟨hr, rfl, hlast.imp_right ?_⟩
        rintro ⟨i, hi, hstays⟩
        exact ⟨i, by rw [List.getLast?_cons, hi]; rfl, hstays⟩
      failed := fun r fs hx => by
        obtain ⟨gs, hbehind, rfl⟩ := behindEvents_eq_ok hx
        obtain ⟨hs, hfails, rfl⟩ := hrest.failed r gs hbehind
        exact ⟨hs, hfails, (List.append_assoc _ _ _).symm⟩
      faulty := fun e hx => hrest.faulty e (behindEvents_eq_error hx) }

/-- All items but the last one are counted by the units. -/
theorem Gathers.length_le (h : env.Gathers item scope p items x) (hp : p ≤ env.stop) :
    items.length ≤ env.stop - p + 1 := by
  induction h with
  | declined | untried | broken | failed => exact Nat.zero_le _
  | stays => exact Nat.le_add_left 1 _
  | @more p q outputs es items x h hne _ ih =>
    obtain ⟨hpq, hq⟩ : p ≤ q ∧ q ≤ env.stop := h.parseEnds.within hp
    have hlength := ih hq
    rw [List.length_cons]
    omega

end

/-! ## Lists -/

/-- An answer with the finished list of the items, if it has a result. -/
def listed (scope : Scope) (items : List Taken) :
    Except Halt (Outcome Unit) → Except Halt (Outcome Outputs) :=
  withResult fun _ => [(Taken.collect scope (scope.value.container scope.state) items).finish]

theorem settles_restOfList_iff {x : Except Halt (Outcome Outputs)} :
    Settles (fun n => restOfList (env.calls n) item scope c) p x ↔
      ∃ items y, env.Gathers item scope p items y ∧
        x = withResult (fun _ => [(Taken.collect scope c items).finish]) y := by
  refine settles_withResult_iff.trans ?_
  simp only [settles_moreItems_iff]
  constructor
  · rintro ⟨_, ⟨items, y, hy, rfl⟩, rfl⟩
    exact ⟨items, y, hy, withResult_withResult _ _ y⟩
  · rintro ⟨items, y, hy, rfl⟩
    refine ⟨_, ⟨items, y, hy, rfl⟩, ?_⟩
    rw [collected, withResult_withResult]
    rfl

/-- Repetition of an item that comes to an end wherever it is asked for ends: skipping it, and the
lists of it, entered in either way.  The items taken up lie behind each other, all of them but the
first one, if it is parsed unasked, and the last one move on, and they are no more than the units
that are left and two.  A success has taken up their outputs in the order of their events, each of
them once; a failure outputs nothing. -/
theorem guarded_repetition (hp : p ≤ env.stop)
    (hitem : ∀ q, p ≤ q → q ≤ env.stop → env.Terminates item scope q) :
    (∃ items x, env.Gathering item scope p items x ∧ items.length ≤ env.stop - p + 1 ∧
      Settles (fun n => skipBranch (env.calls n) item scope) p x) ∧
    (∃ items x, env.Gathering item scope p items x ∧ items.length ≤ env.stop - p + 1 ∧
      env.ParseEnds (.listOpt item) scope p (listed scope items x)) ∧
    ∃ y, env.ParseEnds (.list item) scope p y ∧
      (∀ n commit, env.attempt n (.list item) p = .ok (some commit) →
        env.FinishEnds (.list item) scope p y) ∧
      ((env.ParseEnds item scope p y ∧ ∀ outputs q es, y ≠ .ok ⟨some outputs, q, es⟩) ∨
      ∃ first items x, first.start = p ∧
        env.ParseEnds item scope p (.ok ⟨some first.outputs, first.stop, first.events⟩) ∧
        env.Gathering item scope first.stop items x ∧
        (first :: items).length ≤ env.stop - p + 2 ∧
        y = behindEvents first.events (listed scope (first :: items) x)) := by
  refine ⟨?_, ?_, ?_⟩
  · obtain ⟨x, hx⟩ := exists_settles_moreItems hp hitem .nothing
    obtain ⟨items, y, hy, -⟩ := settles_moreItems_iff.1 hx
    exact ⟨items, y, hy.gathering hp, hy.length_le hp, settles_skipBranch_iff.2 ⟨items, hy⟩⟩
  · obtain ⟨x, hx⟩ := exists_settles_restOfList hp hitem (scope.value.container scope.state)
    obtain ⟨items, y, hy, rfl⟩ := settles_restOfList_iff.1 hx
    exact ⟨items, y, hy.gathering hp, hy.length_le hp, (parseEnds_listOpt_iff _).2 hx⟩
  · obtain ⟨y, hy⟩ := (list_ends hp hitem).1
    refine ⟨y, hy, fun n commit h => (finishEnds_iff h y).2 hy, ?_⟩
    rcases ((parseEnds_list_iff y).1 hy).bind_cases with
      ⟨e, he, rfl⟩ | ⟨q, es, hnone, rfl⟩ | ⟨outputs, q, es, z, hfirst, hz, rfl⟩
    · exact .inl ⟨he, fun _ _ _ h => nomatch h⟩
    · exact .inl ⟨hnone, fun _ _ _ h => nomatch h⟩
    · obtain ⟨hpq, hq⟩ : p ≤ q ∧ q ≤ env.stop := ParseEnds.within hp hfirst
      obtain ⟨items, x, hx, rfl⟩ := settles_restOfList_iff.1 hz
      have hlength := hx.length_le hq
      refine .inr ⟨⟨p, q, outputs, es⟩, items, x, rfl, hfirst, hx.gathering hq, ?_, rfl⟩
      rw [List.length_cons]
      omega

/-- Letters and, where there is none, a position, which is the last item since it stays. -/
theorem guarded_repetition_letters :
    let env : Environment := ⟨⟨#[], #[]⟩, ⟨.ascii, #[0x61, 0x62, 0x31], by decide⟩, 3⟩
    let scope : Scope := .outer .none Scope.defaultMaxDepth (.list false)
    let item : Rule := .choice (.capture (.charClass .alpha)) .position
    0 ≤ env.stop ∧ (∀ q, 0 ≤ q → q ≤ env.stop → env.Terminates item scope q) ∧
    ∃ items x o, env.Gathering item scope 0 items x ∧ items.length ≤ 4 ∧
      env.ParseEnds (.listOpt item) scope 0 (.ok o) ∧ listed scope items x = .ok o ∧
      o.position = 2 := by
  intro env scope item
  have hrun : ∀ q < 4, (env.parse 4 item scope).answers q (fun _ => true) = true ∧
      (env.attempt 4 item q).toOption.isSome = true := by
    decide +kernel
  have hitem : ∀ q, 0 ≤ q → q ≤ env.stop → env.Terminates item scope q := by
    intro q _ hq
    obtain ⟨hparse, hattempt⟩ := hrun q (Nat.lt_succ_of_le hq)
    obtain ⟨o, ho, -⟩ := Parse.exists_of_answers hparse
    refine ⟨⟨_, settles_of_ok ho⟩, 4, fun h => ?_⟩
    rw [h] at hattempt
    cases hattempt
  have hlist : (env.parse 8 (.listOpt item) scope).answers 0 (·.position == 2) = true := by
    decide +kernel
  obtain ⟨o, ho, hposition⟩ := Parse.exists_of_answers hlist
  obtain ⟨-, ⟨items, x, hgathers, hlength, hends⟩, -⟩ :=
    guarded_repetition (Nat.zero_le env.stop) hitem
  have hopt : env.ParseEnds (.listOpt item) scope 0 (.ok o) := settles_of_ok ho
  exact ⟨Nat.zero_le _, hitem, items, x, o, hgathers, hlength, hopt, hends.unique hopt,
    beq_iff_eq.1 hposition⟩

end Environment

end Phrase
