import Phrase.Proofs.Parse.Settles

/-!
# Lists that may be empty

A list of at least one item parses the first one and then takes up more in a loop; a list that may
be empty starts with the loop.  Where an item applies that moves on, or does not end well, the two
lists end alike.  An item that stays where it is ends the loop, but it does so only in the loop:
the list of at least one item takes it up twice (`Environment.listOpt_agrees`).
-/

namespace Phrase

namespace Environment

open Parse

variable {env : Environment} {item : Rule} {scope : Scope} {p n : Nat} {c : Container}

/-! ## One item in a loop -/

/-- Takes up an item's outputs, as the last ones if it has stayed where it was. -/
def takeUp (scope : Scope) (before : Nat) (c : Container) (outputs : Outputs) :
    Parse (ForInStep Container) := do
  let c := scope.value.push c outputs
  if (← Parse.position) = before then return .done c else return .yield c

theorem takeUp_eq (scope : Scope) (before : Nat) (c : Container) (outputs : Outputs) (q : Nat) :
    takeUp scope before c outputs q = .ok ⟨some (if q = before then
      .done (scope.value.push c outputs) else .yield (scope.value.push c outputs)), q, []⟩ := by
  rw [takeUp, bind_of_quiet (m := Parse.position) rfl]
  split
  · rfl
  · rfl

/-- Goes on with an item, if it applies. -/
def takeItem (scope : Scope) (c : Container) : Option Commit → Parse (ForInStep Container)
  | none => return .done c
  | some commit => do
    let before ← Parse.position
    takeUp scope before c (← commit scope)

/-- A step of the loop that takes up items. -/
def itemStep (calls : Calls) (item : Rule) (scope : Scope) (c : Container) :
    Parse (ForInStep Container) :=
  Parse.look (calls.attempt item) >>= takeItem scope c

/-- Takes up items to the end of a list, and outputs it. -/
def restOfList (calls : Calls) (item : Rule) (scope : Scope) (c : Container) : Parse Outputs := do
  return [(← moreItems calls item scope c).finish]

theorem restOfList_eq (env : Environment) (n : Nat) (item : Rule) (scope : Scope) (c : Container) :
    restOfList (env.calls n) item scope c =
      iterate (itemStep (env.calls n) item scope) n c >>= fun c => pure [c.finish] :=
  rfl

theorem grows_itemStep (env : Environment) (item : Rule) (scope : Scope) (c : Container) :
    Grows fun n => itemStep (env.calls n) item scope c :=
  grows_attempt env item (grows_const _) fun _ _ _ _ _ hcommit p =>
    (Parse.Below.refl _ p).bind fun _ q => (hcommit scope q).bind fun _ => Parse.Below.refl _

theorem grows_restOfList (env : Environment) (item : Rule) (scope : Scope) (c : Container) :
    Grows fun n => restOfList (env.calls n) item scope c := by
  simp only [restOfList_eq]
  exact (grows_iterate (grows_itemStep env item scope) c).bind fun _ => grows_const _

/-- Where an item applies, a step of the loop parses it. -/
theorem endAlike_itemStep {commit : Commit} (h : env.attempt n item p = .ok (some commit))
    (scope : Scope) (c : Container) :
    EndAlike (fun l => itemStep (env.calls l) item scope c)
      (fun l => env.parse l item scope >>= takeUp scope p c) p :=
  endAlike_attempt h (k := fun _ => takeItem scope c) (fun _ => grows_const _)
    fun _ _ => bind_of_quiet (m := Parse.position) rfl

/-- Where no item applies, the loop is left. -/
theorem settles_itemStep_declined (h : env.attempt n item p = .ok none) (scope : Scope)
    (c : Container) :
    Settles (fun l => itemStep (env.calls l) item scope c) p (.ok ⟨some (.done c), p, []⟩) :=
  (endAlike_declined h (k := fun _ => takeItem scope c) (grows_const _) _).2
    (settles_pure (ForInStep.done c) p)

/-! ## The rest of a list -/

/-- Goes on behind an item, unless it has stayed where it was. -/
def goOnBehind (calls : Calls) (item : Rule) (scope : Scope) (before : Nat) (c : Container) :
    Parse Outputs := do
  if (← Parse.position) = before then return [c.finish] else restOfList calls item scope c

theorem goOnBehind_eq (calls : Calls) (item : Rule) (scope : Scope) (before : Nat) (c : Container)
    (q : Nat) : goOnBehind calls item scope before c q =
      if q = before then .ok ⟨some [c.finish], q, []⟩ else restOfList calls item scope c q := by
  rw [goOnBehind, bind_of_quiet (m := Parse.position) rfl]
  split
  · rfl
  · rfl

theorem grows_goOnBehind (env : Environment) (item : Rule) (scope : Scope) (before : Nat)
    (c : Container) : Grows fun n => goOnBehind (env.calls n) item scope before c := by
  intro n l hle q
  simp only [Parse.Below, goOnBehind_eq]
  split
  · exact Below.refl Outcome.Alike.refl _
  · exact grows_restOfList env item scope c n l hle q

/-- Where an item applies, the rest of a list is the item and what is behind it. -/
theorem endAlike_restOfList {commit : Commit} (h : env.attempt n item p = .ok (some commit))
    (scope : Scope) (c : Container) :
    EndAlike (fun l => restOfList (env.calls l) item scope c)
      (fun l => env.parse l item scope >>= fun outputs =>
        goOnBehind (env.calls l) item scope p (scope.value.push c outputs)) p := by
  have hstep := grows_itemStep env item scope
  have hlast : ∀ c : Container, Grows fun _ => (pure [c.finish] : Parse Outputs) :=
    fun _ => grows_const _
  have hbehind : ∀ y : ForInStep Container, Grows fun l =>
      proceed (fun c => iterate (itemStep (env.calls l) item scope) l c) y >>= fun c =>
        (pure [c.finish] : Parse Outputs) := fun y => (grows_proceed hstep y).bind hlast
  -- The loop makes a step, and the step parses the item.
  have hloop : EndAlike (fun l => restOfList (env.calls l) item scope c)
      (fun l => itemStep (env.calls l) item scope c >>= fun y =>
        proceed (fun c => iterate (itemStep (env.calls l) item scope) l c) y >>= fun c =>
          pure [c.finish]) p := by
    refine ((endAlike_iterate hstep c p).bind (grows_iterate hstep c)
      ((hstep c).bind fun y => grows_proceed hstep y) hlast hlast
      fun _ q _ _ => EndAlike.refl _ q).trans ?_
    exact endAlike_of_eq fun l => congrFun (bind_bind _ _ _) p
  have htaken : Grows fun l => env.parse l item scope >>= takeUp scope p c :=
    (grows_parse env item scope).bind fun _ => grows_const _
  have hparse := (endAlike_itemStep h scope c).bind (hstep c) htaken hbehind hbehind
    fun _ q _ _ => EndAlike.refl _ q
  refine (hloop.trans hparse).trans (endAlike_of_eq fun l => ?_)
  -- Whether the item has stayed where it was decides in the step as it does behind it.
  rw [bind_bind]
  refine congrArg (fun k => (env.parse l item scope >>= k) p)
    (funext fun outputs => funext fun q => ?_)
  rw [goOnBehind_eq, bind_of_quiet (takeUp_eq _ _ _ _ q)]
  split
  · rfl
  · rfl

theorem settles_restOfList_declined (h : env.attempt n item p = .ok none) (scope : Scope)
    (c : Container) :
    Settles (fun l => restOfList (env.calls l) item scope c) p (.ok ⟨some [c.finish], p, []⟩) := by
  have hstep := grows_itemStep env item scope
  have hleft : Settles (fun l => iterate (itemStep (env.calls l) item scope) l c) p
      (.ok ⟨some c, p, []⟩) :=
    settles_iterate_of_done hstep (settles_itemStep_declined h scope c)
  simp only [restOfList_eq]
  exact hleft.bind_some (k := fun _ c => pure [c.finish]) (grows_iterate hstep c)
    (fun _ => grows_const _) (settles_pure _ p)

/-! ## Lists -/

theorem parseEnds_list_iff (x : Except Halt (Outcome Outputs)) :
    env.ParseEnds (.list item) scope p x ↔
      Settles (fun l => env.parse l item scope >>= fun outputs =>
        restOfList (env.calls l) item scope
          (scope.value.push (scope.value.container scope.state) outputs)) p x :=
  endAlike_parse env (.list item) scope p x

theorem parseEnds_listOpt_iff (x : Except Halt (Outcome Outputs)) :
    env.ParseEnds (.listOpt item) scope p x ↔
      Settles (fun l => restOfList (env.calls l) item scope
        (scope.value.container scope.state)) p x :=
  endAlike_parse env (.listOpt item) scope p x

/-- A list that may be empty is empty where no item applies: then it outputs the container to
start with, emits nothing and does not move.  Where an item applies, the list ends as the one of
at least one item, unless the item succeeds without moving on.  Such an item is taken up once, and
by the list of at least one item twice. -/
theorem listOpt_agrees (env : Environment) (n : Nat) (item : Rule) (scope : Scope) (p : Nat) :
    (env.attempt n item p = .ok none → env.ParseEnds (.listOpt item) scope p
      (.ok ⟨some [(scope.value.container scope.state).finish], p, []⟩)) ∧
    ∀ commit, env.attempt n item p = .ok (some commit) →
      ((∀ outputs es, ¬ env.ParseEnds item scope p (.ok ⟨some outputs, p, es⟩)) →
        ∀ x, env.ParseEnds (.listOpt item) scope p x ↔ env.ParseEnds (.list item) scope p x) ∧
      ∀ outputs es c, env.ParseEnds item scope p (.ok ⟨some outputs, p, es⟩) →
        c = scope.value.push (scope.value.container scope.state) outputs →
        env.ParseEnds (.listOpt item) scope p (.ok ⟨some [c.finish], p, es⟩) ∧
        env.ParseEnds (.list item) scope p
          (.ok ⟨some [(scope.value.push c outputs).finish], p, es ++ es⟩) := by
  have hparse := grows_parse env item scope
  refine ⟨fun h => (parseEnds_listOpt_iff _).2 (settles_restOfList_declined h scope _),
    fun commit h => ⟨fun hmoves x => ?_, fun outputs es c hstays hc => ?_⟩⟩
  · rw [parseEnds_listOpt_iff, parseEnds_list_iff, endAlike_restOfList h scope _ x]
    have hbehind : ∀ outputs q es, Settles (fun l => env.parse l item scope) p
        (.ok ⟨some outputs, q, es⟩) →
        EndAlike
          (fun l => goOnBehind (env.calls l) item scope p
            (scope.value.push (scope.value.container scope.state) outputs))
          (fun l => restOfList (env.calls l) item scope
            (scope.value.push (scope.value.container scope.state) outputs)) q := by
      intro outputs q es hitem
      have hne : q ≠ p := by
        rintro rfl
        exact hmoves outputs es hitem
      exact endAlike_of_eq fun l => (goOnBehind_eq _ _ _ _ _ _).trans (if_neg hne)
    exact (EndAlike.refl _ p).bind hparse hparse (fun _ => grows_goOnBehind env item scope p _)
      (fun _ => grows_restOfList env item scope _) hbehind x
  · subst hc
    -- Behind an item that has not moved on, the rest of a list ends.
    have hrest : ∀ c, Settles (fun l => restOfList (env.calls l) item scope c) p
        (.ok ⟨some [(scope.value.push c outputs).finish], p, es⟩) := by
      intro c
      have hdone : Settles (fun l => goOnBehind (env.calls l) item scope p
          (scope.value.push c outputs)) p
          (.ok ⟨some [(scope.value.push c outputs).finish], p, []⟩) :=
        settles_of_ok (n := 0) ((goOnBehind_eq _ _ _ _ _ _).trans (if_pos rfl))
      have hitem := Settles.bind_some hparse (fun _ => grows_goOnBehind env item scope p _) hstays
        hdone
      rw [endAlike_restOfList h scope c _]
      simpa only [behindEvents, Except.map, List.append_nil] using hitem
    exact ⟨(parseEnds_listOpt_iff _).2 (hrest _), (parseEnds_list_iff _).2
      (Settles.bind_some hparse (fun _ => grows_restOfList env item scope _) hstays (hrest _))⟩

/-- Lists of letters, in front of one and behind it, and of positions. -/
theorem listOpt_agrees_letter :
    let env : Environment := ⟨⟨#[], #[]⟩, ⟨.ascii, #[0x61, 0x31], by decide⟩, 2⟩
    let scope : Scope := .outer .none Scope.defaultMaxDepth (.list false)
    let item : Rule := .capture (.charClass .alpha)
    env.ParseEnds (.listOpt item) scope 1 (.ok ⟨some [.list []], 1, []⟩) ∧
    (∃ o, o.position = 1 ∧ env.ParseEnds (.listOpt item) scope 0 (.ok o) ∧
      env.ParseEnds (.list item) scope 0 (.ok o)) ∧
    env.ParseEnds (.listOpt .position) scope 0
      (.ok ⟨some [.list [.pos 0]], 0, [.token .position ⟨0, 0⟩]⟩) := by
  intro env scope item
  have hnone : env.attempt 1 item 1 = .ok none := rfl
  obtain ⟨commit, hcommit⟩ : ∃ commit, env.attempt 1 item 0 = .ok (some commit) := ⟨_, rfl⟩
  let e : Event := .token .charClass ⟨0, 1⟩
  have hitem : env.ParseEnds item scope 0 (.ok ⟨some [.lexeme ⟨0, 1⟩], 1, [e]⟩) :=
    settles_of_ok (n := 2) rfl
  have hmoves : ∀ outputs es, ¬ env.ParseEnds item scope 0 (.ok ⟨some outputs, 0, es⟩) := by
    intro outputs es h
    cases h.unique hitem
  have hrun : (env.parse 3 (.list item) scope).answers 0 (·.position == 1) = true := by
    decide +kernel
  obtain ⟨o, ho, hposition⟩ := Parse.exists_of_answers hrun
  have hlist : env.ParseEnds (.list item) scope 0 (.ok o) := settles_of_ok ho
  have hstays : env.ParseEnds .position scope 0
      (.ok ⟨some [.pos 0], 0, [.token .position ⟨0, 0⟩]⟩) := settles_of_ok (n := 1) rfl
  exact ⟨(listOpt_agrees env 1 item scope 1).1 hnone,
    ⟨o, beq_iff_eq.1 hposition,
      (((listOpt_agrees env 1 item scope 0).2 commit hcommit).1 hmoves _).2 hlist, hlist⟩,
    (((listOpt_agrees env 1 .position scope 0).2 _ rfl).2 _ _ _ hstays rfl).1⟩

/-- A position is a branch that always applies and never moves on: the list of positions holds one
of them, unless it has to hold at least one, when it holds two. -/
theorem list_position_twice :
    let env : Environment := ⟨⟨#[], #[]⟩, ⟨.utf8, #[], by decide⟩, 0⟩
    let scope : Scope := .outer .none Scope.defaultMaxDepth (.list false)
    let e : Event := .token .position ⟨0, 0⟩
    env.grammar.isBranch .position = true ∧
    (∃ commit, env.attempt 1 .position 0 = .ok (some commit)) ∧
    env.ParseEnds (.listOpt .position) scope 0 (.ok ⟨some [.list [.pos 0]], 0, [e]⟩) ∧
    env.ParseEnds (.list .position) scope 0 (.ok ⟨some [.list [.pos 0, .pos 0]], 0, [e, e]⟩) ∧
    ¬ ∀ x, env.ParseEnds (.listOpt .position) scope 0 x ↔
      env.ParseEnds (.list .position) scope 0 x := by
  intro env scope e
  have honce : env.ParseEnds (.listOpt .position) scope 0
      (.ok ⟨some [.list [.pos 0]], 0, [e]⟩) := settles_of_ok (n := 3) rfl
  have htwice : env.ParseEnds (.list .position) scope 0
      (.ok ⟨some [.list [.pos 0, .pos 0]], 0, [e, e]⟩) := settles_of_ok (n := 3) rfl
  refine ⟨rfl, ⟨_, rfl⟩, honce, htwice, fun h => ?_⟩
  cases ((h _).1 honce).unique htwice

end Environment

end Phrase
