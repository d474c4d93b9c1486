import Phrase.Proofs.Tree.Texts

/-!
# Arenas from calls

An arena is built by calls: productions are started, tokens added, and productions closed with the
innermost marker that is out (`Building.call`).  Every call does to the arena what it does to the
open productions (`TreeBuilder.call_building`), so that any calls lead to the arena of some tree
(`Building.exists_run_tree`).  It is in document order, and whichever way one goes through it one
meets the same nodes (`WalksAgree`).  Cancelling a production undoes all that was done since it was
started (`Building.cancel_undoes`).
-/

namespace Phrase

/-! ## Ways through an arena -/

/-- The ways through an arena meet the same nodes; `visits` are the steps of a walk. -/
structure WalksAgree (nodes : List NodeData) (visits : List ArenaVisit) : Prop where
  /-- A walk ends, and these are its steps. -/
  yields_iff (vs : List ArenaVisit) : Traversal.Yields nodes .new vs ↔ vs = visits
  /-- It comes to all nodes in their order. -/
  reached : visits.filterMap ArenaVisit.reached? = List.range nodes.length
  /-- It leaves what it has entered, the innermost production first. -/
  balanced : ArenaVisit.Balanced visits
  /-- It enters each production once. -/
  entered : visits.filterMap ArenaVisit.entered? = numbersOf nodes fun n => !n.isToken
  /-- It leaves each production once. -/
  left : (visits.filterMap ArenaVisit.left?).Perm (numbersOf nodes fun n => !n.isToken)
  /-- It passes the tokens in their order. -/
  leaves : visits.filterMap ArenaVisit.leaf? = numbersOf nodes NodeData.isToken
  /-- The nodes with a text in a snapshot are those of the tokens, in their order, and the content
  is what their texts are when joined. -/
  texts (text : Span → Except Fault String) :
    (Snapshot.ofArenaBy text nodes).map (Option.map fun s => (s.withText, s.content)) =
      ((numbersOf nodes NodeData.isToken).mapM
        (Snapshot.ofArenaNodeBy text nodes nodes.length)).map
        fun ts => some (ts, Snapshot.joined ts)

theorem SyntaxTree.walksAgree (n : Node) :
    WalksAgree (SyntaxTree.arena ⟨some n⟩) ((SyntaxTree.walk ⟨some n⟩).map Visit.arena) where
  yields_iff _ := Traversal.yields_iff n
  reached := reached_walk n
  balanced := n.balanced_walk 0 none
  entered := entered_walk n
  left := (n.balanced_walk 0 none).left_perm.trans (.of_eq (entered_walk n))
  leaves := leaf_walk n
  texts text := Snapshot.texts_ofArenaBy text n

/-! ## Calls -/

/-- A call of the builder of an arena.  Productions are closed with the innermost marker that is
out. -/
inductive BuildCall where
  | start (name : String) (position : Nat)
  | token (kind : TokenKind) (range : Span)
  | finish
  | cancel
  deriving DecidableEq, Repr

/-- A builder of an arena, with the markers that are out, innermost first. -/
structure Building where
  builder : ArenaBuilder
  markers : List Marker

namespace Building

/-- Only the root is open. -/
def new (root : String) (start : Nat) : Building := ⟨.new root start, []⟩

/-- Hands back the innermost marker.  If none is out there is nothing to call `close` with. -/
def handBack (s : Building) (close : ArenaBuilder → Marker → Except Fault ArenaBuilder) :
    Except Fault Building :=
  match s.markers with
  | [] => .ok s
  | m :: ms => (close s.builder m).map fun b => ⟨b, ms⟩

/-- Makes a call. -/
def call (s : Building) : BuildCall → Except Fault Building
  | .start name position =>
    (s.builder.start name position).map fun (b, m) => ⟨b, m :: s.markers⟩
  | .token kind range => (s.builder.token kind range).map fun b => ⟨b, s.markers⟩
  | .finish => s.handBack ArenaBuilder.finish
  | .cancel => s.handBack ArenaBuilder.cancel

/-- Makes calls one after another. -/
def run (s : Building) (calls : List BuildCall) : Except Fault Building := calls.foldlM call s

end Building

/-! ## Calls and open productions -/

namespace TreeBuilder

/-- The arena of the open productions, with their markers. -/
def building (b : TreeBuilder) : Building := ⟨b.arena, b.markers⟩

/-- What a call does to the open productions. -/
def call (b : TreeBuilder) : BuildCall → TreeBuilder
  | .start name position => b.start name position
  | .token kind range => b.token kind range
  | .finish => b.finish
  | .cancel => b.cancel

/-- Markers do not tell what is inside of the innermost production. -/
theorem markers_current (f g : Frame) (fs : List Frame) :
    (⟨f, fs⟩ : TreeBuilder).markers = (⟨g, fs⟩ : TreeBuilder).markers := by
  cases fs <;> rfl

theorem call_building (b : TreeBuilder) (c : BuildCall) :
    b.building.call c = .ok (b.call c).building := by
  obtain ⟨f, fs⟩ := b
  cases c with
  | start name position =>
    show ((⟨f, fs⟩ : TreeBuilder).arena.start name position).map _ = _
    rw [arena_start]
    rfl
  | token kind range =>
    show ((⟨f, fs⟩ : TreeBuilder).arena.token kind range).map _ = _
    rw [arena_token, building, call, token]
    exact congrArg (fun ms => Except.ok (Building.mk _ ms)) (markers_current f _ fs)
  | finish =>
    cases fs with
    | nil => rfl
    | cons g fs =>
      show ((⟨f, g :: fs⟩ : TreeBuilder).arena.finish ⟨_, _⟩).map _ = _
      rw [arena_finish]
      exact congrArg (fun ms => Except.ok (Building.mk _ ms)) (markers_current g _ fs)
  | cancel =>
    cases fs with
    | nil => rfl
    | cons g fs =>
      show ((⟨f, g :: fs⟩ : TreeBuilder).arena.cancel ⟨_, _⟩).map _ = _
      rw [arena_cancel]
      rfl

theorem run_building (b : TreeBuilder) (calls : List BuildCall) :
    b.building.run calls = .ok (calls.foldl call b).building := by
  induction calls generalizing b with
  | nil => rfl
  | cons c calls ih =>
    rw [Building.run, List.foldlM_cons, call_building]
    exact ih (b.call c)

theorem building_new (root : String) (start : Nat) :
    (TreeBuilder.new root start).building = .new root start :=
  rfl

/-- Inside of a production there is no tree yet. -/
theorem arena_tree_unfinished (f g : Frame) (fs : List Frame) :
    (⟨f, g :: fs⟩ : TreeBuilder).arena.tree =
      .error (.unfinishedProductions (Frame.count (g :: fs))) := by
  have hopen : Frame.count (g :: fs) ≠ 0 := by
    rw [Frame.count]
    omega
  exact if_pos hopen

end TreeBuilder

/-! ## Cancelling -/

/-- How many productions are open behind some calls if `n` are open in front of them, and none but
these are closed. -/
def BuildCall.openBehind : Nat → List BuildCall → Option Nat
  | n, [] => some n
  | n, .start _ _ :: calls => openBehind (n + 1) calls
  | n, .token _ _ :: calls => openBehind n calls
  | n + 1, .finish :: calls | n + 1, .cancel :: calls => openBehind n calls
  | 0, .finish :: _ | 0, .cancel :: _ => none

/-- Calls that hand back every marker they are given, the innermost one first, and no other. -/
def BuildCall.Balanced (calls : List BuildCall) : Prop := openBehind 0 calls = some 0

instance (calls : List BuildCall) : Decidable (BuildCall.Balanced calls) :=
  inferInstanceAs (Decidable (_ = _))

/-- What is around the open productions that calls may close is left alone by these calls: inside
of a production nothing touches those around it. -/
theorem TreeBuilder.foldl_call_of_openBehind (fs outer : List Frame) {f : Frame}
    {calls : List BuildCall} (h : BuildCall.openBehind fs.length calls = some 0) :
    ∃ g, calls.foldl call ⟨f, fs ++ outer⟩ = ⟨g, outer⟩ := by
  induction calls generalizing f fs with
  | nil =>
    obtain rfl := List.eq_nil_of_length_eq_zero (Option.some.inj h)
    exact ⟨f, rfl⟩
  | cons c calls ih =>
    cases c with
    | start name position => exact ih (f :: fs) h
    | token kind range => exact ih fs h
    | finish =>
      cases fs with
      | nil => cases h
      | cons g fs => exact ih fs h
    | cancel =>
      cases fs with
      | nil => cases h
      | cons g fs => exact ih fs h

namespace Building

/-- Whatever is done inside of a production, cancelling it gives the builder back that there was
before the production was started: the same nodes, with the same production open.  No step on the
way is at fault, and the marker that is out in the end is the one of the production. -/
theorem cancel_undoes {root : String} {start : Nat} {before : List BuildCall} {s : Building}
    (hs : (new root start).run before = .ok s) (name : String) (position : Nat)
    {inner : List BuildCall} (hinner : BuildCall.Balanced inner) :
    ∃ opened inside m, s.builder.start name position = .ok (opened, m) ∧
      run ⟨opened, m :: s.markers⟩ inner = .ok ⟨inside, m :: s.markers⟩ ∧
      inside.cancel m = .ok s.builder := by
  have hrun := TreeBuilder.run_building (.new root start) before
  rw [TreeBuilder.building_new, hs] at hrun
  obtain rfl := Except.ok.inj hrun
  obtain ⟨f, fs⟩ := before.foldl TreeBuilder.call (.new root start)
  -- what is inside of the production is one frame more, and the frames around it are those of `s`
  obtain ⟨g, hg⟩ := TreeBuilder.foldl_call_of_openBehind [] (f :: fs)
    (f := ⟨name, position, []⟩) hinner
  have hinside := TreeBuilder.run_building ⟨⟨name, position, []⟩, f :: fs⟩ inner
  rw [show (⟨⟨name, position, []⟩, f :: fs⟩ : TreeBuilder) = ⟨⟨name, position, []⟩, [] ++ f :: fs⟩
    from rfl, hg] at hinside
  exact ⟨_, _, _, TreeBuilder.arena_start _ name position, hinside, TreeBuilder.arena_cancel⟩

/-- A production inside of another one: a token and a child of it are finished, another child is
cancelled with what is inside of it. -/
theorem cancel_undoes_nested :
    let s : Building := ⟨⟨[⟨.production "root", ⟨0, 0⟩, none, [1, 2]⟩,
      ⟨.token .literal, ⟨0, 1⟩, some 0, []⟩, ⟨.production "outer", ⟨1, 1⟩, some 0, []⟩], 2⟩, [⟨2, 0⟩]⟩
    let inner : List BuildCall := [.token .digits ⟨1, 2⟩, .start "kept" 2, .token .error ⟨2, 3⟩,
      .finish, .start "dropped" 3, .start "deeper" 3, .cancel, .token .eof ⟨3, 4⟩, .cancel]
    (new "root" 0).run [.token .literal ⟨0, 1⟩, .start "outer" 1] = .ok s ∧
      BuildCall.Balanced inner ∧
      ∃ opened inside m, s.builder.start "child" 1 = .ok (opened, m) ∧
        run ⟨opened, m :: s.markers⟩ inner = .ok ⟨inside, m :: s.markers⟩ ∧
        inside.cancel m = .ok s.builder := by
  intro s inner
  have hs : (new "root" 0).run [.token .literal ⟨0, 1⟩, .start "outer" 1] = .ok s := rfl
  have hinner : BuildCall.Balanced inner := by decide
  exact ⟨hs, hinner, cancel_undoes hs "child" 1 hinner⟩

/-- Any calls lead to an arena in document order through which all ways agree, once all markers
are handed back; before that there is none. -/
theorem exists_run_tree (root : String) (start : Nat) (calls : List BuildCall) :
    ∃ s, (Building.new root start).run calls = .ok s ∧
      ((s.markers = [] ∧ ∃ nodes visits, s.builder.tree = .ok nodes ∧ DocumentOrder nodes ∧
          WalksAgree nodes visits) ∨
        (s.markers ≠ [] ∧ ∃ current,
          s.builder.tree = .error (.unfinishedProductions current))) := by
  have hrun := TreeBuilder.run_building (.new root start) calls
  rw [TreeBuilder.building_new] at hrun
  refine ⟨_, hrun, ?_⟩
  obtain ⟨f, fs⟩ := calls.foldl TreeBuilder.call (.new root start)
  cases fs with
  | nil =>
    exact .inl ⟨rfl, _, _, TreeBuilder.arena_tree, SyntaxTree.documentOrder f.toNode,
      SyntaxTree.walksAgree f.toNode⟩
  | cons g fs =>
    exact .inr ⟨List.cons_ne_nil _ _, _, TreeBuilder.arena_tree_unfinished f g fs⟩

/-- Cancelled productions leave nothing behind. -/
example :
    (do
      let s ← (Building.new "root" 0).run
        [.token .literal ⟨0, 1⟩, .start "child" 1, .token .digits ⟨1, 3⟩, .start "inner" 3,
          .token .error ⟨3, 4⟩, .cancel, .cancel, .token .error ⟨1, 4⟩]
      s.builder.tree) =
    .ok [⟨.production "root", ⟨0, 4⟩, none, [1, 2]⟩, ⟨.token .literal, ⟨0, 1⟩, some 0, []⟩,
      ⟨.token .error, ⟨1, 4⟩, some 0, []⟩] := by
  rfl

end Building

end Phrase
