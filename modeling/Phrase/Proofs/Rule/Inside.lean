import Phrase.Grammar

/-!
# The rules inside of a rule

A rule is made of other rules, some of them only through its tokens.  What is asked of all
rules inside of a rule is asked of its parts as well.
-/

namespace Phrase

/-- The token that a rule is made of. -/
def Rule.token? : Rule → Option Token
  | .token t | .capture t | .symbolOf _ t => some t
  | .integer _ radix => some (.digits radix)
  | .symbolIdentifier _ leading trailing => some (.identifier leading trailing)
  | _ => none

mutual

/-- The rules inside of a token. -/
def Token.inside : Token → List Rule
  | .rule r _ => r.inside
  | _ => []

/-- A rule and all rules inside of it, those of its tokens as well. -/
def Rule.inside : Rule → List Rule
  | .token t => .token t :: t.inside
  | .capture t => .capture t :: t.inside
  | .symbolOf table t => .symbolOf table t :: t.inside
  | .seq a b => .seq a b :: (a.inside ++ b.inside)
  | .branch a b => .branch a b :: (a.inside ++ b.inside)
  | .choice a b => .choice a b :: (a.inside ++ b.inside)
  | .listSep a b => .listSep a b :: (a.inside ++ b.inside)
  | .listTrailing a b => .listTrailing a b :: (a.inside ++ b.inside)
  | .opt r => .opt r :: r.inside
  | .list r => .list r :: r.inside
  | .listOpt r => .listOpt r :: r.inside
  | .times count r => .times count r :: r.inside
  | .recover r => .recover r :: r.inside
  | .whitespace r => .whitespace r :: r.inside
  | .noWhitespace r => .noWhitespace r :: r.inside
  | r => [r]

end

namespace Rule

/-- A rule and the rules inside of it, without those of tokens. -/
def outside : Rule → List Rule
  | .seq a b => .seq a b :: (a.outside ++ b.outside)
  | .branch a b => .branch a b :: (a.outside ++ b.outside)
  | .choice a b => .choice a b :: (a.outside ++ b.outside)
  | .listSep a b => .listSep a b :: (a.outside ++ b.outside)
  | .listTrailing a b => .listTrailing a b :: (a.outside ++ b.outside)
  | .opt r => .opt r :: r.outside
  | .list r => .list r :: r.outside
  | .listOpt r => .listOpt r :: r.outside
  | .times count r => .times count r :: r.outside
  | .recover r => .recover r :: r.outside
  | .whitespace r => .whitespace r :: r.outside
  | .noWhitespace r => .noWhitespace r :: r.outside
  | r => [r]

variable {r s t : Rule}

theorem mem_inside_self (r : Rule) : r ∈ r.inside := by
  cases r <;> exact List.mem_cons_self

theorem mem_outside_self (r : Rule) : r ∈ r.outside := by
  cases r <;> exact List.mem_cons_self

theorem mem_inside_of_part (hs : s ∈ r.parts) (ht : t ∈ s.inside) : t ∈ r.inside := by
  cases r with
  | seq | branch | choice | listSep | listTrailing =>
    simp only [parts, List.mem_cons, List.not_mem_nil, or_false] at hs
    refine List.mem_cons_of_mem _ (List.mem_append.2 ?_)
    rcases hs with rfl | rfl
    · exact .inl ht
    · exact .inr ht
  | opt | list | listOpt | times | recover | whitespace | noWhitespace =>
    obtain rfl := List.mem_singleton.1 hs
    exact List.mem_cons_of_mem _ ht
  | _ => exact absurd hs List.not_mem_nil

theorem mem_outside_of_part (hs : s ∈ r.parts) (ht : t ∈ s.outside) : t ∈ r.outside := by
  cases r with
  | seq | branch | choice | listSep | listTrailing =>
    simp only [parts, List.mem_cons, List.not_mem_nil, or_false] at hs
    refine List.mem_cons_of_mem _ (List.mem_append.2 ?_)
    rcases hs with rfl | rfl
    · exact .inl ht
    · exact .inr ht
  | opt | list | listOpt | times | recover | whitespace | noWhitespace =>
    obtain rfl := List.mem_singleton.1 hs
    exact List.mem_cons_of_mem _ ht
  | _ => exact absurd hs List.not_mem_nil

theorem mem_inside_of_token {kind : TokenKind} (hs : r.token? = some (.rule s kind))
    (ht : t ∈ s.inside) : t ∈ r.inside := by
  cases r with
  | token | capture | symbolOf =>
    obtain rfl := Option.some.inj hs
    exact List.mem_cons_of_mem _ ht
  | _ => cases hs

end Rule

/-- All rules of a grammar. -/
def Grammar.rules (g : Grammar) : List Rule :=
  g.productions.toList.flatMap fun p => p.rule.inside ++ (p.whitespace.map Rule.inside).getD []

/-- What holds of all productions of a grammar holds of every production, as long as it holds of
the one that stands for those that are missing. -/
theorem Grammar.forall_production {g : Grammar} {P : Production → Prop} (hdefault : P default)
    (h : ∀ p ∈ g.productions.toList, P p) (n : Nat) : P (g.production n) := by
  rw [Grammar.production, Array.getD_eq_getD_getElem?]
  cases hp : g.productions[n]? with
  | none => exact hdefault
  | some p => exact h p (Array.mem_toList_iff.2 (Array.mem_of_getElem? hp))

/-- What holds of all rules of a grammar holds inside of every production, as long as it holds of
the rule of those that are missing. -/
theorem Grammar.forall_inside {g : Grammar} {P : Rule → Prop} (hnever : P .never)
    (h : ∀ r ∈ g.rules, P r) (n : Nat) :
    (∀ r ∈ (g.production n).rule.inside, P r) ∧
      ∀ w, (g.production n).whitespace = some w → ∀ r ∈ w.inside, P r := by
  refine g.forall_production (P := fun p => (∀ r ∈ p.rule.inside, P r) ∧
    ∀ w, p.whitespace = some w → ∀ r ∈ w.inside, P r) ⟨fun r hr => ?_, fun w hw => nomatch hw⟩
    (fun p hp => ?_) n
  · rw [List.mem_singleton.1 hr]
    exact hnever
  · have hin : ∀ r, r ∈ p.rule.inside ∨ r ∈ (p.whitespace.map Rule.inside).getD [] → P r :=
      fun r hr => h r (List.mem_flatMap.2 ⟨p, hp, List.mem_append.2 hr⟩)
    refine ⟨fun r hr => hin r (.inl hr), fun w hw r hr => hin r (.inr ?_)⟩
    rw [hw]
    exact hr

/-- A rule that is not the grammar's own, and whose literal, if it is made of one, passes a
check. -/
structure Rule.Provided (Spells : String → Prop) (r : Rule) : Prop where
  provided : ∀ kind width, r ≠ .emit kind width
  spells : ∀ text, r.token? = some (.literal text) → Spells text

/-- A production on its own is made of no other rule and of no literal. -/
theorem Rule.provided_inside_production {Spells : String → Prop} (n : Nat) :
    ∀ r ∈ (Rule.production n).inside, r.Provided Spells := by
  intro r hr
  rw [List.mem_singleton.1 hr]
  exact ⟨fun _ _ h => (nomatch h), fun _ h => (nomatch h)⟩

/-- A grammar of such rules. -/
def Grammar.Provided (g : Grammar) (Spells : String → Prop) : Prop :=
  ∀ r ∈ g.rules, r.Provided Spells

/-- The rules of every production are rules of the grammar, or the production is missing. -/
theorem Grammar.Provided.production {g : Grammar} {Spells : String → Prop}
    (h : g.Provided Spells) (n : Nat) :
    (∀ r ∈ (g.production n).rule.inside, r.Provided Spells) ∧
      ∀ w, (g.production n).whitespace = some w → ∀ r ∈ w.inside, r.Provided Spells :=
  g.forall_inside ⟨fun _ _ h => (nomatch h), fun _ h => (nomatch h)⟩ h n

end Phrase
