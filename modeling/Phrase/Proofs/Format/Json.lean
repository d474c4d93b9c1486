import Phrase.Format.JsonReader

/-!
# Reading what was printed

A JSON value without raw text is read back from the lines that it is printed as, whatever its
strings hold and however deep it is nested (`Json.read?_pretty`).  Each reader gives back what
its printer wrote in front of any other text, a number as long as that text does not go on with
it.
-/

namespace Phrase.Json

variable {c : Char} {cs rest : List Char} {level fuel : Nat}

/-! ## Blanks -/

theorem skipBlanks_cons (h : isBlank c = false) (cs : List Char) :
    skipBlanks (c :: cs) = c :: cs :=
  List.dropWhile_cons_of_neg (by rw [h]; exact Bool.false_ne_true)

/-- The start of a line is passed over. -/
theorem skipBlanks_indent (level : Nat) (cs : List Char) :
    skipBlanks (indent level ++ cs) = skipBlanks cs := by
  have hspaces : ∀ n, skipBlanks (List.replicate n ' ' ++ cs) = skipBlanks cs := by
    intro n
    induction n with
    | zero => rfl
    | succ n ih => exact ih
  exact hspaces (2 * level)

/-! ## Strings -/

/-- A character that stands for itself. -/
theorem readPieces_cons (hquote : c ≠ '"') (hescape : c ≠ '\\') (hc : ¬ c.toNat < 0x20)
    (rest : List Char) :
    readPieces (c :: rest) = (readPieces rest).map fun q => (.inl c :: q.1, q.2) := by
  rw [readPieces.eq_def]
  split
  · next h => cases h
  · next h => exact absurd (List.cons.inj h).1 hquote
  · next h => exact absurd (List.cons.inj h).1 hescape
  · next h => exact absurd (List.cons.inj h).1 hescape
  · next h =>
    obtain ⟨rfl, rfl⟩ := List.cons.inj h
    rw [if_neg hc]
    cases readPieces rest with
    | none => rfl
    | some q => rfl

/-- A letter behind a backslash. -/
theorem readPieces_escape {e : Char} (he : e ≠ 'u') (hc : unescape? e = some c)
    (rest : List Char) :
    readPieces ('\\' :: e :: rest) = (readPieces rest).map fun q => (.inl c :: q.1, q.2) := by
  rw [readPieces.eq_def]
  split
  · next h => cases h
  · next h => cases h
  · next h => exact absurd (List.cons.inj (List.cons.inj h).2).1 he
  · next h =>
    obtain ⟨rfl, rfl⟩ := List.cons.inj (List.cons.inj h).2
    rw [hc]
    cases readPieces rest with
    | none => rfl
    | some q => rfl
  · next h _ hne h' =>
    obtain ⟨rfl, rfl⟩ := List.cons.inj h'
    exact absurd rfl (hne _ _ rfl)

/-- A control character that is written by its number. -/
theorem readPieces_control (h : c.toNat < 0x20) (rest : List Char) :
    readPieces (['\\', 'u', '0', '0'] ++ hex2 c.toNat ++ rest) =
      (readPieces rest).map fun q => (.inr c.toNat :: q.1, q.2) := by
  have hunit : ∀ n < 0x20,
      unit? '0' '0' (Nat.digitChar (n / 16 % 16)) (Nat.digitChar (n % 16)) = some n := by
    decide
  simp only [hex2, List.cons_append, List.nil_append]
  rw [readPieces, hunit _ h]
  cases readPieces rest with
  | none => rfl
  | some q => rfl

/-- A character is written by a letter, by its number or as itself. -/
theorem escapeChar_cases (c : Char) :
    (∃ e, e ≠ 'u' ∧ unescape? e = some c ∧ escapeChar c = ['\\', e]) ∨
      (c.toNat < 0x20 ∧ escapeChar c = ['\\', 'u', '0', '0'] ++ hex2 c.toNat) ∨
      (c ≠ '"' ∧ c ≠ '\\' ∧ ¬ c.toNat < 0x20 ∧ escapeChar c = [c]) := by
  have hletter : ∀ d e, c = d → e ≠ 'u' → unescape? e = some d → escapeChar d = ['\\', e] →
      ∃ e, e ≠ 'u' ∧ unescape? e = some c ∧ escapeChar c = ['\\', e] := by
    rintro d e rfl he hd hescape
    exact ⟨e, he, hd, hescape⟩
  have hnumber : ∀ {n}, c.toNat = n → c = Char.ofNat n := fun h => by rw [← h, Char.ofNat_toNat]
  by_cases hquote : c = '"'
  · exact .inl (hletter _ '"' hquote (by decide) rfl rfl)
  by_cases hescape : c = '\\'
  · exact .inl (hletter _ '\\' hescape (by decide) rfl rfl)
  by_cases hc : c.toNat < 0x20
  · by_cases hb : c.toNat = 0x08
    · exact .inl (hletter _ 'b' (hnumber hb) (by decide) rfl rfl)
    by_cases ht : c.toNat = 0x09
    · exact .inl (hletter _ 't' (hnumber ht) (by decide) rfl rfl)
    by_cases hn : c.toNat = 0x0A
    · exact .inl (hletter _ 'n' (hnumber hn) (by decide) rfl rfl)
    by_cases hf : c.toNat = 0x0C
    · exact .inl (hletter _ 'f' (hnumber hf) (by decide) rfl rfl)
    by_cases hr : c.toNat = 0x0D
    · exact .inl (hletter _ 'r' (hnumber hr) (by decide) rfl rfl)
    refine .inr (.inl ⟨hc, ?_⟩)
    rw [escapeChar, if_neg hquote, if_neg hescape, if_pos hc, if_neg hb, if_neg ht, if_neg hn,
      if_neg hf, if_neg hr]
  · refine .inr (.inr ⟨hquote, hescape, hc, ?_⟩)
    rw [escapeChar, if_neg hquote, if_neg hescape, if_neg hc]

/-- Each way gives one piece, which stands for the character. -/
theorem exists_piece (c : Char) : ∃ p, (∀ ps, joinPieces (p :: ps) = (joinPieces ps).map (c :: ·)) ∧
    ∀ rest, readPieces (escapeChar c ++ rest) =
      (readPieces rest).map fun q => (p :: q.1, q.2) := by
  obtain ⟨e, he, hc, hescape⟩ | ⟨hc, hescape⟩ | ⟨hq, hb, hc, hescape⟩ := escapeChar_cases c
  · refine ⟨.inl c, fun ps => rfl, fun rest => ?_⟩
    rw [hescape]
    exact readPieces_escape he hc rest
  · refine ⟨.inr c.toNat, fun ps => ?_, fun rest => ?_⟩
    · rw [joinPieces.eq_def]
      simp only
      rw [if_neg (by omega), Char.ofNat_toNat]
    · rw [hescape]
      exact readPieces_control hc rest
  · refine ⟨.inl c, fun ps => rfl, fun rest => ?_⟩
    rw [hescape]
    exact readPieces_cons hq hb hc rest

theorem exists_pieces (cs rest : List Char) :
    ∃ ps, readPieces (cs.flatMap escapeChar ++ '"' :: rest) = some (ps, rest) ∧
      joinPieces ps = some cs := by
  induction cs with
  | nil => exact ⟨[], rfl, rfl⟩
  | cons c cs ih =>
    obtain ⟨ps, hread, hjoin⟩ := ih
    obtain ⟨p, hpiece, hfront⟩ := exists_piece c
    refine ⟨p :: ps, ?_, ?_⟩
    · rw [List.flatMap_cons, List.append_assoc, hfront, hread]
      rfl
    · rw [hpiece, hjoin]
      rfl

theorem quoteChars_append (s : String) (rest : List Char) :
    quoteChars s ++ rest = '"' :: (s.toList.flatMap escapeChar ++ '"' :: rest) := by
  rw [quoteChars, List.append_assoc]
  rfl

/-- A string is read back behind its first quote. -/
theorem readString_escaped (s : String) (rest : List Char) :
    readString (s.toList.flatMap escapeChar ++ '"' :: rest) = some (.str s, rest) := by
  obtain ⟨ps, hread, hjoin⟩ := exists_pieces s.toList rest
  rw [readString, hread]
  simp only [Option.bind_eq_bind, Option.bind_some]
  rw [hjoin]
  simp only [String.ofList_toList]
  rfl

theorem readName_escaped (s : String) (rest : List Char) :
    readName (s.toList.flatMap escapeChar ++ '"' :: rest) = some (some s, rest) := by
  rw [readName, readString_escaped]
  rfl

/-! ## Numbers -/

/-- A text that does not go on with a number in front of it. -/
def EndsNumber (rest : List Char) : Prop :=
  ∀ c ∈ rest.head?, c.isDigit = false ∧ c ≠ '.' ∧ c ≠ 'e' ∧ c ≠ 'E'

theorem readDigits_append {digits : List Char} (hdigits : ∀ c ∈ digits, c.isDigit = true)
    (hrest : EndsNumber rest) : readDigits (digits ++ rest) = (digits, rest) := by
  have hnone : rest.takeWhile Char.isDigit = [] ∧ rest.dropWhile Char.isDigit = rest := by
    cases rest with
    | nil => exact ⟨rfl, rfl⟩
    | cons c rest =>
      have hc := Bool.eq_false_iff.1 (hrest c rfl).1
      exact ⟨List.takeWhile_cons_of_neg hc, List.dropWhile_cons_of_neg hc⟩
  rw [readDigits, List.takeWhile_append_of_pos hdigits, List.dropWhile_append_of_pos hdigits,
    hnone.1, hnone.2, List.append_nil]

theorem readFraction_of_endsNumber (h : EndsNumber rest) : readFraction rest = some ([], rest) := by
  rw [readFraction.eq_def]
  split
  · exact absurd rfl (h _ rfl).2.1
  · rfl

theorem readExponent_of_endsNumber (h : EndsNumber rest) : readExponent rest = some ([], rest) := by
  cases rest with
  | nil => rfl
  | cons c rest =>
    obtain ⟨-, -, he, hE⟩ := h c rfl
    rw [readExponent.eq_def]
    exact if_neg (not_or.2 ⟨he, hE⟩)

theorem ofDigits_toDigits (n : Nat) : ofDigits (Nat.toDigits 10 n) = n := by
  have h := Nat.ofDigitChars_ten_toDigits (n := n)
  rw [Nat.ofDigitChars_eq_foldl] at h
  rw [ofDigits]
  refine Eq.trans ?_ h
  congr 1
  funext m c
  rw [Nat.mul_comm]
  rfl

/-- Only zero is written with a zero in front. -/
theorem eq_zero_of_toDigits_head (n : Nat) (h : (Nat.toDigits 10 n).head? = some '0') : n = 0 := by
  induction n using Nat.strongRecOn with
  | ind n ih =>
    rw [Nat.toDigits_eq_if (by decide)] at h
    split at h
    · exact Nat.digitChar_eq_zero.1 (Option.some.inj h)
    · rw [List.head?_append, Option.or_of_isSome (by simp [Nat.toDigits_ne_nil])] at h
      have hzero := ih (n / 10) (by omega) h
      omega

/-- The digits of a number are read back, and with a sign in front unless they write zero. -/
theorem readNumber_toDigits (m : Nat) (hrest : EndsNumber rest) :
    readNumber (Nat.toDigits 10 m ++ rest) = some (.int m, rest) ∧
      (m ≠ 0 → readNumber ('-' :: (Nat.toDigits 10 m ++ rest)) = some (.int (-m), rest)) := by
  have hdigit : ∀ c ∈ Nat.toDigits 10 m, c.isDigit = true :=
    fun c => Nat.isDigit_of_mem_toDigits (by decide) (by decide)
  have hdigits := readDigits_append hdigit hrest
  have hzero : ¬ ((Nat.toDigits 10 m).isEmpty ∨
      (Nat.toDigits 10 m).head? = some '0' ∧ 1 < (Nat.toDigits 10 m).length) := by
    rintro (hempty | ⟨hhead, hlength⟩)
    · exact Nat.toDigits_ne_nil (List.isEmpty_iff.1 hempty)
    · obtain rfl := eq_zero_of_toDigits_head m hhead
      revert hlength
      decide
  constructor
  · rw [readNumber.eq_def]
    simp only
    split
    · next h =>
      obtain ⟨d, ds, hds⟩ := List.exists_cons_of_ne_nil (Nat.toDigits_ne_nil (n := m) (b := 10))
      rw [hds, List.cons_append] at h
      have hd := hdigit d (hds ▸ List.mem_cons_self)
      rw [(List.cons.inj h).1] at hd
      exact absurd hd (by decide)
    · simp only [hdigits]
      rw [if_neg hzero, readFraction_of_endsNumber hrest]
      simp only [Option.bind_eq_bind, Option.bind_some]
      rw [readExponent_of_endsNumber hrest]
      simp [ofDigits_toDigits]
  · intro hm
    rw [readNumber.eq_def]
    simp only [hdigits]
    rw [if_neg hzero, readFraction_of_endsNumber hrest]
    simp only [Option.bind_eq_bind, Option.bind_some]
    rw [readExponent_of_endsNumber hrest]
    simp [ofDigits_toDigits, hm]

/-- A number is printed as digits, behind a sign if it is negative. -/
theorem toString_cases (n : Int) :
    (∃ m : Nat, n = m ∧ (toString n).toList = Nat.toDigits 10 m) ∨
      ∃ m : Nat, m ≠ 0 ∧ n = -m ∧ (toString n).toList = '-' :: Nat.toDigits 10 m := by
  have htext : toString n = n.repr := rfl
  rw [htext, Int.repr_eq_if]
  split
  · next hn =>
    refine .inl ⟨n.toNat, (Int.toNat_of_nonneg hn).symm, ?_⟩
    rw [Nat.repr_eq_ofList_toDigits, String.toList_ofList]
  · next hn =>
    refine .inr ⟨(-n).toNat, by omega, by omega, ?_⟩
    rw [Nat.repr_eq_ofList_toDigits, String.toList_append]
    exact congrArg (List.cons '-') String.toList_ofList

theorem readNumber_toString (n : Int) (hrest : EndsNumber rest) :
    readNumber ((toString n).toList ++ rest) = some (.int n, rest) := by
  obtain ⟨m, rfl, htext⟩ | ⟨m, hm, rfl, htext⟩ := toString_cases n
  · rw [htext]
    exact (readNumber_toDigits m hrest).1
  · rw [htext]
    exact (readNumber_toDigits m hrest).2 hm

/-- The characters that a number starts with. -/
def StartsNumber (c : Char) : Prop := c = '-' ∨ c.isDigit = true

theorem exists_toString_cons (n : Int) :
    ∃ c cs, (toString n).toList = c :: cs ∧ StartsNumber c := by
  obtain ⟨m, -, htext⟩ | ⟨m, -, -, htext⟩ := toString_cases n
  · obtain ⟨d, ds, hds⟩ := List.exists_cons_of_ne_nil (Nat.toDigits_ne_nil (n := m) (b := 10))
    exact ⟨d, ds, htext.trans hds, .inr (Nat.isDigit_of_mem_toDigits (by decide) (by decide)
      (hds ▸ List.mem_cons_self))⟩
  · exact ⟨_, _, htext, .inl rfl⟩

theorem StartsNumber.ne {d : Char} (h : StartsNumber c) (hsign : d ≠ '-')
    (hdigit : d.isDigit = false) : c ≠ d := by
  rintro rfl
  obtain hc | hc := h
  · exact hsign hc
  · rw [hdigit] at hc
    cases hc

theorem StartsNumber.isBlank_eq (h : StartsNumber c) : isBlank c = false := by
  simp only [isBlank, Bool.or_eq_false_iff, decide_eq_false_iff_not]
  exact ⟨⟨⟨h.ne (by decide) rfl, h.ne (by decide) rfl⟩, h.ne (by decide) rfl⟩,
    h.ne (by decide) rfl⟩

/-- What starts like a number is read as one. -/
theorem readValue_of_startsNumber (h : StartsNumber c) (fuel : Nat) (cs : List Char) :
    readValue (fuel + 1) (c :: cs) = readNumber (c :: cs) := by
  rw [readValue, skipBlanks_cons h.isBlank_eq]
  split
  · next heq => exact absurd (List.cons.inj heq).1 (h.ne (by decide) rfl)
  · next heq => exact absurd (List.cons.inj heq).1 (h.ne (by decide) rfl)
  · next heq => exact absurd (List.cons.inj heq).1 (h.ne (by decide) rfl)
  · next heq => exact absurd (List.cons.inj heq).1 (h.ne (by decide) rfl)
  · next heq => exact absurd (List.cons.inj heq).1 (h.ne (by decide) rfl)
  · next heq => exact absurd (List.cons.inj heq).1 (h.ne (by decide) rfl)
  · rfl

/-! ## Values -/

/-- Values without raw text. -/
inductive Plain : Json → Prop
  | null : Plain .null
  | bool (b : Bool) : Plain (.bool b)
  | int (n : Int) : Plain (.int n)
  | str (s : String) : Plain (.str s)
  | arr {items : List Json} (h : ∀ j ∈ items, Plain j) : Plain (.arr items)
  | obj {members : List (String × Json)} (h : ∀ m ∈ members, Plain m.2) : Plain (.obj members)

/-- A value starts with no blank and closes nothing. -/
theorem Plain.exists_cons {j : Json} (h : j.Plain) (level : Nat) :
    ∃ c cs, prettyChars level j = c :: cs ∧ isBlank c = false ∧ c ≠ ']' := by
  cases h with
  | null => exact ⟨'n', _, rfl, rfl, by decide⟩
  | bool b =>
    cases b with
    | false => exact ⟨'f', _, rfl, rfl, by decide⟩
    | true => exact ⟨'t', _, rfl, rfl, by decide⟩
  | int n =>
    obtain ⟨c, cs, htext, hc⟩ := exists_toString_cons n
    exact ⟨c, cs, htext, hc.isBlank_eq, hc.ne (by decide) rfl⟩
  | str s => exact ⟨'"', _, rfl, rfl, by decide⟩
  | @arr items h =>
    cases items with
    | nil => exact ⟨'[', _, rfl, rfl, by decide⟩
    | cons j js => exact ⟨'[', _, rfl, rfl, by decide⟩
  | @obj members h =>
    cases members with
    | nil => exact ⟨'\x7b', _, rfl, rfl, by decide⟩
    | cons m ms => exact ⟨'\x7b', _, rfl, rfl, by decide⟩

/-- A value at the front of a text is read back by enough calls. -/
def ReadsBack (j : Json) : Prop :=
  ∀ (level fuel : Nat) (rest : List Char), EndsNumber rest →
    (prettyChars level j).length ≤ fuel →
    readValue fuel (prettyChars level j ++ rest) = some (j, rest)

/-- Blanks in front of a value do not matter. -/
theorem readValue_congr {ds : List Char} (h : skipBlanks cs = skipBlanks ds) (fuel : Nat) :
    readValue fuel cs = readValue fuel ds := by
  cases fuel with
  | zero => rfl
  | succ fuel => rw [readValue, h, readValue.eq_def]

theorem endsNumber_indent (level : Nat) (cs : List Char) : EndsNumber (indent level ++ cs) := by
  rintro _ ⟨⟩
  decide

theorem endsNumber_prettyItems (level level' : Nat) (js : List Json) (cs : List Char) :
    EndsNumber (prettyItems level js ++ (indent level' ++ cs)) := by
  cases js with
  | nil => exact endsNumber_indent level' cs
  | cons j js =>
    rintro _ ⟨⟩
    decide

theorem endsNumber_prettyMembers (level level' : Nat) (ms : List (String × Json))
    (cs : List Char) : EndsNumber (prettyMembers level ms ++ (indent level' ++ cs)) := by
  cases ms with
  | nil => exact endsNumber_indent level' cs
  | cons m ms =>
    rintro _ ⟨⟩
    decide

/-- Items are read back up to the bracket that closes them. -/
theorem readItems_prettyItems {js : List Json} (hjs : ∀ j ∈ js, ReadsBack j) (level' : Nat)
    (hfuel : (prettyItems level js).length < fuel) :
    readItems fuel (prettyItems level js ++ (indent level' ++ ']' :: rest)) = some (js, rest) := by
  induction js generalizing fuel with
  | nil =>
    obtain ⟨fuel, rfl⟩ := Nat.exists_eq_add_one.2 (Nat.lt_of_le_of_lt (Nat.zero_le _) hfuel)
    rw [prettyItems, List.nil_append, readItems, skipBlanks_indent, skipBlanks_cons rfl]
    rfl
  | cons j js ih =>
    obtain ⟨hj, hjs⟩ := List.forall_mem_cons.1 hjs
    obtain ⟨fuel, rfl⟩ := Nat.exists_eq_add_one.2 (Nat.lt_of_le_of_lt (Nat.zero_le _) hfuel)
    simp only [prettyItems, List.length_append, List.length_cons] at hfuel
    simp only [prettyItems, List.append_assoc, List.cons_append]
    rw [readItems, skipBlanks_cons rfl]
    simp only
    rw [readValue_congr (skipBlanks_indent ..),
      hj level fuel _ (endsNumber_prettyItems level level' js _) (by omega)]
    simp only [Option.bind_eq_bind, Option.bind_some]
    rw [ih hjs (by omega)]
    rfl

/-- A name with its value is read back, blanks in front of it or not. -/
theorem readMember_pretty (name : String) {j : Json} (hj : ReadsBack j) (level : Nat)
    (hrest : EndsNumber rest) (hfuel : (prettyChars level j).length < fuel)
    (hcs : skipBlanks cs = quoteChars name ++ (':' :: ' ' :: (prettyChars level j ++ rest))) :
    readMember fuel cs = some ((some name, j), rest) := by
  obtain ⟨fuel, rfl⟩ := Nat.exists_eq_add_one.2 (Nat.lt_of_le_of_lt (Nat.zero_le _) hfuel)
  rw [readMember, hcs, quoteChars_append]
  simp only
  rw [readName_escaped]
  simp only [Option.bind_eq_bind, Option.bind_some]
  rw [skipBlanks_cons rfl]
  simp only
  have hblank : readValue fuel (' ' :: (prettyChars level j ++ rest)) =
      readValue fuel (prettyChars level j ++ rest) := by
    refine readValue_congr ?_ fuel
    rfl
  rw [hblank, hj level fuel rest hrest (by omega)]
  rfl

/-- Members are read back up to the brace that closes them. -/
theorem readMembers_prettyMembers {ms : List (String × Json)} (hms : ∀ m ∈ ms, ReadsBack m.2)
    (level' : Nat) (hfuel : (prettyMembers level ms).length < fuel) :
    readMembers fuel (prettyMembers level ms ++ (indent level' ++ '\x7d' :: rest)) =
      some (ms.map fun m => (some m.1, m.2), rest) := by
  induction ms generalizing fuel with
  | nil =>
    obtain ⟨fuel, rfl⟩ := Nat.exists_eq_add_one.2 (Nat.lt_of_le_of_lt (Nat.zero_le _) hfuel)
    rw [prettyMembers, List.nil_append, readMembers, skipBlanks_indent, skipBlanks_cons rfl]
    rfl
  | cons m ms ih =>
    obtain ⟨name, j⟩ := m
    obtain ⟨hj : ReadsBack j, hms⟩ := List.forall_mem_cons.1 hms
    obtain ⟨fuel, rfl⟩ := Nat.exists_eq_add_one.2 (Nat.lt_of_le_of_lt (Nat.zero_le _) hfuel)
    simp only [prettyMembers, List.length_append, List.length_cons] at hfuel
    simp only [prettyMembers, List.append_assoc, List.cons_append, List.nil_append]
    rw [readMembers, skipBlanks_cons rfl]
    simp only
    rw [readMember_pretty name hj level (endsNumber_prettyMembers level level' ms _) (by omega)
      (by rw [skipBlanks_indent, quoteChars_append, skipBlanks_cons rfl])]
    simp only [Option.bind_eq_bind, Option.bind_some]
    rw [ih hms (by omega)]
    rfl

/-- The names that were read are texts, so they make up the object. -/
theorem ofMembers_map (ms : List (String × Json)) :
    ofMembers (ms.map fun m => (some m.1, m.2)) = .obj ms := by
  have hnames : ∀ f : Option String × Json → Option (String × Json),
      (∀ name j, f (some name, j) = some (name, j)) →
      (ms.map fun m => (some m.1, m.2)).mapM f = some ms := by
    intro f hf
    induction ms with
    | nil => rfl
    | cons m ms ih =>
      rw [List.map_cons, List.mapM_cons, ih, hf]
      rfl
  rw [ofMembers, hnames _ fun _ _ => rfl]

/-- A list is read back if its items are. -/
theorem readsBack_arr {items : List Json} (h : ∀ j ∈ items, ReadsBack j)
    (hplain : ∀ j ∈ items, Plain j) : ReadsBack (.arr items) := by
  intro level fuel rest _ hfuel
  cases items with
  | nil =>
    obtain ⟨fuel, rfl⟩ := Nat.exists_eq_add_one.2 (Nat.lt_of_lt_of_le (Nat.succ_pos _) hfuel)
    rfl
  | cons j js =>
    obtain ⟨hj, hjs⟩ := List.forall_mem_cons.1 h
    simp only [prettyChars, List.length_append, List.length_cons] at hfuel
    obtain ⟨fuel, rfl⟩ := Nat.exists_eq_add_one.2 (show 0 < fuel by omega)
    simp only [prettyChars, List.append_assoc, List.cons_append, List.nil_append]
    -- behind the line break the first item starts, which is no bracket
    obtain ⟨c, cs, hchars, hblank, hbracket⟩ :=
      (hplain j List.mem_cons_self).exists_cons (level + 1)
    have hread := hj (level + 1) fuel _
      (endsNumber_prettyItems (level + 1) level js (']' :: rest)) (by omega)
    have hitems : readItems fuel (prettyItems (level + 1) js ++ (indent level ++ ']' :: rest)) =
        some (js, rest) := readItems_prettyItems hjs level (by omega)
    rw [hchars, List.cons_append] at hread
    rw [readValue, skipBlanks_cons rfl]
    simp only
    rw [skipBlanks_indent, hchars, List.cons_append, skipBlanks_cons hblank]
    split
    · next heq => exact absurd (List.cons.inj heq).1 hbracket
    · rw [hread]
      simp only [Option.bind_eq_bind, Option.bind_some]
      rw [hitems]
      rfl

/-- An object is read back if the values of its members are. -/
theorem readsBack_obj {members : List (String × Json)} (h : ∀ m ∈ members, ReadsBack m.2) :
    ReadsBack (.obj members) := by
  intro level fuel rest _ hfuel
  cases members with
  | nil =>
    obtain ⟨fuel, rfl⟩ := Nat.exists_eq_add_one.2 (Nat.lt_of_lt_of_le (Nat.succ_pos _) hfuel)
    rfl
  | cons m ms =>
    obtain ⟨name, j⟩ := m
    obtain ⟨hj : ReadsBack j, hms⟩ := List.forall_mem_cons.1 h
    simp only [prettyChars, List.length_append, List.length_cons] at hfuel
    obtain ⟨fuel, rfl⟩ := Nat.exists_eq_add_one.2 (show 0 < fuel by omega)
    simp only [prettyChars, List.append_assoc, List.cons_append, List.nil_append]
    rw [readValue, skipBlanks_cons rfl]
    simp only
    rw [skipBlanks_indent, quoteChars_append, skipBlanks_cons rfl]
    split
    · next heq => exact absurd (List.cons.inj heq).1 (by decide)
    · rw [readMember_pretty name hj (level + 1)
        (endsNumber_prettyMembers (level + 1) level ms _) (by omega)
        (by rw [quoteChars_append, skipBlanks_cons rfl])]
      simp only [Option.bind_eq_bind, Option.bind_some]
      rw [readMembers_prettyMembers hms level (by omega)]
      exact congrArg (fun j => some (j, rest)) (ofMembers_map ((name, j) :: ms))

/-- A value is read back at the front of any text that does not go on with it. -/
theorem Plain.readsBack {j : Json} (h : j.Plain) : ReadsBack j := by
  induction h with
  | null =>
    intro level fuel rest hrest hfuel
    obtain ⟨fuel, rfl⟩ := Nat.exists_eq_add_one.2 (Nat.lt_of_lt_of_le (Nat.succ_pos _) hfuel)
    rfl
  | bool b =>
    intro level fuel rest hrest hfuel
    cases b with
    | false =>
      obtain ⟨fuel, rfl⟩ := Nat.exists_eq_add_one.2 (Nat.lt_of_lt_of_le (Nat.succ_pos _) hfuel)
      rfl
    | true =>
      obtain ⟨fuel, rfl⟩ := Nat.exists_eq_add_one.2 (Nat.lt_of_lt_of_le (Nat.succ_pos _) hfuel)
      rfl
  | int n =>
    intro level fuel rest hrest hfuel
    obtain ⟨c, cs, htext, hc⟩ := exists_toString_cons n
    have hread := readNumber_toString n hrest
    simp only [prettyChars, htext, List.length_cons, List.cons_append] at hfuel hread ⊢
    obtain ⟨fuel, rfl⟩ := Nat.exists_eq_add_one.2 (Nat.lt_of_lt_of_le (Nat.succ_pos _) hfuel)
    rw [readValue_of_startsNumber hc, hread]
  | str s =>
    intro level fuel rest hrest hfuel
    simp only [prettyChars, quoteChars_append]
    obtain ⟨fuel, rfl⟩ := Nat.exists_eq_add_one.2 (Nat.lt_of_lt_of_le (Nat.succ_pos _) hfuel)
    exact readString_escaped s rest
  | arr hitems ih => exact readsBack_arr ih hitems
  | obj _ ih => exact readsBack_obj ih

/-- A value without raw text is what its lines hold. -/
theorem read?_pretty {j : Json} (h : j.Plain) : read? j.pretty = some j := by
  have hread := h.readsBack 0 (3 * (prettyChars 0 j).length + 3) [] (fun _ hc => nomatch hc)
    (by omega)
  rw [List.append_nil] at hread
  rw [read?, pretty, String.toList_ofList, hread]
  rfl

end Phrase.Json
