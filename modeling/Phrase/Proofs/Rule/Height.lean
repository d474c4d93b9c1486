import Phrase.Proofs.Rule.Inside

/-!
# How deep rules reach

The height of a rule is how deep rules are nested in it; a production counts with its rank.
Where every production has a higher rank than those that its rule and its whitespace reach, no
production is inside of itself, and ranks bound how deep a parse can get.
-/

namespace Phrase

mutual

/-- How deep rules are nested in a token. -/
def Token.height (ranks : Nat → Nat) : Token → Nat
  | .rule r _ => r.height ranks
  | _ => 0

/-- How deep rules are nested in a rule. -/
def Rule.height (ranks : Nat → Nat) : Rule → Nat
  | .token t | .capture t | .symbolOf _ t => t.height ranks + 1
  | .seq a b | .branch a b | .listSep a b | .listTrailing a b =>
    max (a.height ranks) (b.height ranks) + 1
  -- A choice is parsed by trying it, which is one step more.
  | .choice a b => max (a.height ranks) (b.height ranks) + 2
  | .opt r | .list r | .listOpt r | .times _ r | .recover r | .whitespace r | .noWhitespace r =>
    r.height ranks + 1
  | .production n | .recurse n => ranks n + 1
  | _ => 1

end

/-- How deep rules are nested in whitespace, if there is any. -/
def reserve (ranks : Nat → Nat) (whitespace : Option Rule) : Nat :=
  (whitespace.map (Rule.height ranks)).getD 0

namespace Rule

variable (ranks : Nat → Nat) {r s : Rule}

theorem height_pos (r : Rule) : 1 ≤ r.height ranks := by
  cases r <;> simp [height]

theorem height_of_part (h : s ∈ r.parts) : s.height ranks + 1 ≤ r.height ranks := by
  cases r with
  | seq | branch | choice | listSep | listTrailing =>
    simp only [parts, List.mem_cons, List.not_mem_nil, or_false] at h
    rcases h with rfl | rfl
    · simp only [height]; omega
    · simp only [height]; omega
  | opt | list | listOpt | times | recover | whitespace | noWhitespace =>
    obtain rfl := List.mem_singleton.1 h
    simp only [height]; omega
  | _ => exact absurd h List.not_mem_nil

theorem height_of_token {kind : TokenKind} (h : r.token? = some (.rule s kind)) :
    s.height ranks + 1 ≤ r.height ranks := by
  cases r with
  | token | capture | symbolOf =>
    obtain rfl := Option.some.inj h
    simp only [height, Token.height]; omega
  | _ => cases h

/-- Whether a rule is a text that is not empty. -/
def isText : Rule → Bool
  | .token (.literal text) => text != ""
  | _ => false

theorem exists_text_of_isText (h : r.isText = true) :
    ∃ text, r = .token (.literal text) ∧ text ≠ "" := by
  unfold isText at h
  split at h
  · next text => exact ⟨text, rfl, bne_iff_ne.1 h⟩
  · cases h

/-- Whether there is a text between the items of a rule, if they are separated. -/
def isPaced : Rule → Bool
  | .listSep _ separator | .listTrailing _ separator => separator.isText
  | _ => true

end Rule

/-- A grammar whose productions reach only those of a lower rank, and none of whose lists can go
on without end. -/
structure Grammar.Ranked (g : Grammar) (ranks : Nat → Nat) : Prop where
  height : ∀ n, (g.production n).rule.height ranks + reserve ranks (g.production n).whitespace ≤
    ranks n
  paced : ∀ r ∈ g.rules, r.isPaced = true

end Phrase
