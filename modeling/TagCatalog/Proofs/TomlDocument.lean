import Mathlib
import TagCatalog.Toml.Reader

/-! Documents that are written line by line, read back. A line is an assignment to one bare key, or a
header, and its value is a decimal integer or a boolean. -/

namespace TagCatalog.Toml

/-! ## Decimal integers -/

def IsDigits (cs : List Char) : Prop := cs ≠ [] ∧ ∀ c ∈ cs, c.isDigit = true

theorem isDigits_toDigits (n : Nat) : IsDigits (Nat.toDigits 10 n) :=
  ⟨Nat.toDigits_ne_nil, fun _ => Nat.isDigit_of_mem_toDigits (by decide) (by decide)⟩

theorem IsDigits.not_mem {cs : List Char} (h : IsDigits cs) {c : Char} (hc : c.isDigit = false) :
    c ∉ cs := fun hmem => by simp [h.2 c hmem] at hc

theorem IsDigits.ne_word {cs : List Char} (h : IsDigits cs) (word : List Char) {c : Char}
    (hc : c ∈ word) (hdigit : c.isDigit = false) : cs ≠ word := by
  rintro rfl
  exact h.not_mem hdigit hc

theorem IsDigits.takeWhile_eq {cs : List Char} (h : IsDigits cs) {p : Char → Bool}
    (hp : ∀ c, p c = false → c.isDigit = false) : cs.takeWhile p = cs := by
  rw [List.takeWhile_eq_self_iff]
  intro c hc
  by_contra hnot
  exact h.not_mem (hp c (by simpa using hnot)) hc

theorem isRun_isDigit {cs : List Char} (h : IsDigits cs) : isRun Char.isDigit cs = true := by
  obtain ⟨hne, hdigits⟩ := h
  induction cs with
  | nil => exact absurd rfl hne
  | cons c cs ih =>
    have hc := hdigits c List.mem_cons_self
    have hcs : ∀ d ∈ cs, d.isDigit = true := fun d hd => hdigits d (List.mem_cons_of_mem c hd)
    cases cs with
    | nil => exact hc
    | cons d cs =>
      have hd : d ≠ '_' := by
        rintro rfl
        exact absurd (hcs '_' List.mem_cons_self) (by decide)
      simp [isRun, hd, hc, ih (List.cons_ne_nil d cs) hcs]

/-- Only zero is written with a zero in front. -/
theorem head?_toDigits {n : Nat} (h : (Nat.toDigits 10 n).head? = some '0') : n = 0 := by
  induction n using Nat.strongRecOn with
  | ind n ih =>
    by_cases hn : n < 10
    · rw [Nat.toDigits_of_lt_base hn] at h
      interval_cases n <;> simp_all [Nat.digitChar]
    · rw [Nat.toDigits_of_base_le (by decide) (by omega),
        List.head?_append_of_ne_nil _ Nat.toDigits_ne_nil] at h
      have := ih (n / 10) (by omega) h
      omega

theorem isWhole_toDigits (n : Nat) : isWhole (Nat.toDigits 10 n) = true := by
  have hrun := isRun_isDigit (isDigits_toDigits n)
  by_cases hn : n = 0
  · rw [hn]
    rfl
  · have hhead : (Nat.toDigits 10 n).head? ≠ some '0' := fun h => hn (head?_toDigits h)
    cases hdigits : Nat.toDigits 10 n with
    | nil => exact absurd hdigits Nat.toDigits_ne_nil
    | cons c cs =>
      have hc : c ≠ '0' := by simpa [hdigits] using hhead
      rw [hdigits] at hrun
      simp [isWhole, hc, hrun]

theorem withoutUnderscores_eq {cs : List Char} (h : IsDigits cs) : withoutUnderscores cs = cs := by
  have hno := h.not_mem (c := '_') (by decide)
  rw [withoutUnderscores, List.filter_eq_self]
  intro c hc
  have hne : c ≠ '_' := by
    rintro rfl
    exact hno hc
  simpa using hne

/-- Digits, perhaps with a minus sign in front. -/
def IsSigned (negative : Bool) (token digits : List Char) : Prop :=
  IsDigits digits ∧ token = if negative then '-' :: digits else digits

variable {negative : Bool} {token digits : List Char}

theorem IsSigned.splitSign_eq (h : IsSigned negative token digits) :
    splitSign token = (negative, digits) := by
  obtain ⟨hdigits, rfl⟩ := h
  cases negative with
  | true => rfl
  | false =>
    cases digits with
    | nil => exact absurd rfl hdigits.1
    | cons c cs =>
      have hminus : c ≠ '-' := fun h => hdigits.not_mem (c := '-') (by decide) (by simp [h])
      have hplus : c ≠ '+' := fun h => hdigits.not_mem (c := '+') (by decide) (by simp [h])
      simp [splitSign, hminus, hplus]

theorem mem_of_twoDigits? {cs rest : List Char} {n : Nat}
    (h : Instant.twoDigits? cs = some (n, rest)) {c : Char} (hc : c ∈ rest) : c ∈ cs := by
  unfold Instant.twoDigits? at h
  split at h
  · split at h
    · cases h
      simp [hc]
    · cases h
  · cases h

theorem mark?_of_not_mem {mark : Char} {cs : List Char} (h : mark ∉ cs) : mark? mark cs = none := by
  cases cs with
  | nil => rfl
  | cons c cs =>
    have hc : c ≠ mark := fun heq => h (by simp [heq])
    simp [mark?, hc]

theorem afterDate?_of_not_mem {cs : List Char} (h : '-' ∉ cs) : afterDate? cs = none := by
  unfold afterDate?
  cases hcentury : Instant.twoDigits? cs with
  | none => rfl
  | some century =>
    cases hyear : Instant.twoDigits? century.2 with
    | none => simp [hyear]
    | some year =>
      have hmark : mark? '-' year.2 = none := mark?_of_not_mem fun hmem =>
        h (mem_of_twoDigits? hcentury (mem_of_twoDigits? hyear hmem))
      simp [hyear, hmark]

theorem afterTime?_of_not_mem {cs : List Char} (h : ':' ∉ cs) : afterTime? cs = none := by
  unfold afterTime?
  cases hhour : Instant.twoDigits? cs with
  | none => rfl
  | some hour =>
    have hmark : mark? ':' hour.2 = none :=
      mark?_of_not_mem fun hmem => h (mem_of_twoDigits? hhour hmem)
    simp [hmark]

theorem IsSigned.afterDate?_eq (h : IsSigned negative token digits) : afterDate? token = none := by
  obtain ⟨hdigits, rfl⟩ := h
  cases negative with
  | true => cases digits <;> rfl
  | false => exact afterDate?_of_not_mem (hdigits.not_mem (by decide))

theorem IsSigned.afterTime?_eq (h : IsSigned negative token digits) : afterTime? token = none := by
  obtain ⟨hdigits, rfl⟩ := h
  cases negative with
  | true => cases digits <;> rfl
  | false => exact afterTime?_of_not_mem (hdigits.not_mem (by decide))

theorem IsSigned.isFloat_eq (h : IsSigned negative token digits) : isFloat token = false := by
  have hmantissa : digits.takeWhile (!isExponentMark ·) = digits := by
    refine h.1.takeWhile_eq fun c hc => ?_
    simp only [isExponentMark, Bool.not_eq_false', Bool.or_eq_true, decide_eq_true_eq] at hc
    rcases hc with rfl | rfl
    · decide
    · decide
  have hwhole : digits.takeWhile (· != '.') = digits := by
    refine h.1.takeWhile_eq fun c hc => ?_
    obtain rfl : c = '.' := by simpa using hc
    decide
  -- All of the token is its whole part, so that neither a fraction nor an exponent is left.
  have hdecimal : isDecimalFloat token = false := by
    simp [isDecimalFloat, h.splitSign_eq, hmantissa, hwhole, fractionDigits?, exponentValue?]
  have hinfinity := h.1.ne_word ['i', 'n', 'f'] (c := 'i') (by simp) (by decide)
  have hnumber := h.1.ne_word ['n', 'a', 'n'] (c := 'n') (by simp) (by decide)
  rw [isFloat, h.splitSign_eq, hdecimal]
  simp [hinfinity, hnumber]

theorem IsSigned.ne_word (h : IsSigned negative token digits) (word : List Char) {c : Char}
    (hc : c ∈ word) (hdigit : c.isDigit = false) (hminus : c ≠ '-') : token ≠ word := by
  rintro rfl
  obtain ⟨hdigits, rfl⟩ := h
  have hnot := hdigits.not_mem hdigit
  cases negative with
  | true => simp [hminus, hnot] at hc
  | false => exact hnot hc

theorem IsSigned.integer?_eq (h : IsSigned negative token digits) :
    integer? token = decimal? token := by
  unfold integer?
  split
  · exact absurd rfl (h.ne_word _ (c := 'x') (by simp) (by decide) (by decide))
  · exact absurd rfl (h.ne_word _ (c := 'o') (by simp) (by decide) (by decide))
  · exact absurd rfl (h.ne_word _ (c := 'b') (by simp) (by decide) (by decide))
  · rfl

theorem IsSigned.plain?_eq (h : IsSigned negative token digits) (rest : List Char) :
    plain? token rest = (decimal? token).map fun n => (.integer n, rest) := by
  have htrue := h.ne_word ['t', 'r', 'u', 'e'] (c := 't') (by simp) (by decide) (by decide)
  have hfalse :=
    h.ne_word ['f', 'a', 'l', 's', 'e'] (c := 'f') (by simp) (by decide) (by decide)
  simp [plain?, htrue, hfalse, isDate, isTime, isMoment, h.afterDate?_eq, h.afterTime?_eq,
    h.isFloat_eq, h.integer?_eq]

theorem toList_toString (n : Int) : ∃ negative, ∃ m : Nat,
    IsSigned negative (toString n).toList (Nat.toDigits 10 m) ∧
      n = if negative then -(m : Int) else m := by
  cases n with
  | ofNat m =>
    refine ⟨false, m, ⟨isDigits_toDigits m, ?_⟩, rfl⟩
    simp [Int.toString_eq_repr, Int.repr, Nat.repr]
  | negSucc m =>
    refine ⟨true, m + 1, ⟨isDigits_toDigits (m + 1), ?_⟩, rfl⟩
    simp [Int.toString_eq_repr, Int.repr, Nat.repr]

theorem decimal?_toString {n : Int} (h : -2 ^ 63 ≤ n ∧ n < 2 ^ 63) :
    decimal? (toString n).toList = some n := by
  obtain ⟨negative, m, hsigned, hn⟩ := toList_toString n
  simp only [decimal?, hsigned.splitSign_eq, withoutUnderscores_eq hsigned.1, isWhole_toDigits,
    Nat.ofDigitChars_ten_toDigits, if_true, ← hn, inRange?, if_pos h]

theorem isRunChar_of_isSigned (h : IsSigned negative token digits) :
    ∀ c ∈ token, isRunChar c = true := by
  obtain ⟨hdigits, rfl⟩ := h
  have hrun (c : Char) (hc : c ∈ digits) : isRunChar c = true := by
    simp [isRunChar, Char.isAlphanum, hdigits.2 c hc]
  cases negative with
  | true =>
    intro c hc
    rcases List.mem_cons.mp hc with rfl | hc
    · decide
    · exact hrun c hc
  | false => exact hrun

/-! ## Values -/

/-- The first character of a text that is all of one kind is none of another kind. -/
theorem exists_cons_of_forall {p : Char → Bool} {cs : List Char} (hne : cs ≠ [])
    (h : ∀ c ∈ cs, p c = true) (marks : List Char) (hmarks : ∀ c ∈ marks, p c = false) :
    ∃ c rest, cs = c :: rest ∧ c ∉ marks := by
  obtain ⟨c, rest, rfl⟩ := List.exists_cons_of_ne_nil hne
  refine ⟨c, rest, rfl, fun hmem => ?_⟩
  have hc := h c List.mem_cons_self
  simp [hmarks c hmem] at hc

theorem skipSpace_cons {c : Char} (h : c ∉ [' ', '\t']) (cs : List Char) :
    skipSpace (c :: cs) = c :: cs := by
  simp only [List.mem_cons, List.not_mem_nil, or_false, not_or] at h
  simp [skipSpace, isSpace, h.1, h.2]

/-- A run of characters that stands for a value on its own. -/
structure IsScalar (token : List Char) (v : Toml) : Prop where
  ne_nil : token ≠ []
  isRunChar : ∀ c ∈ token, isRunChar c = true
  plain : ∀ rest, plain? token ('\n' :: rest) = some (v, '\n' :: rest)

theorem isScalar_toString {n : Int} (h : -2 ^ 63 ≤ n ∧ n < 2 ^ 63) :
    IsScalar (toString n).toList (.integer n) := by
  obtain ⟨negative, m, hsigned, -⟩ := toList_toString n
  refine ⟨?_, isRunChar_of_isSigned hsigned, fun rest => ?_⟩
  · rw [hsigned.2]
    cases negative with
    | true => exact List.cons_ne_nil _ _
    | false => exact hsigned.1.1
  · rw [hsigned.plain?_eq, decimal?_toString h, Option.map_some]

theorem isScalar_boolean (b : Bool) :
    IsScalar (if b then "true" else "false").toList (.boolean b) := by
  cases b with
  | true => exact ⟨by simp, by simp; decide, fun _ => by simp [plain?]⟩
  | false => exact ⟨by simp, by simp; decide, fun _ => by simp [plain?]⟩

variable {v : Toml}

theorem value?_isScalar (h : IsScalar token v) (levels : Nat) (rest : List Char) :
    value? levels (token ++ '\n' :: rest) = some (v, '\n' :: rest) := by
  have hrun : run (token ++ '\n' :: rest) = (token, '\n' :: rest) := by
    rw [run, List.takeWhile_append_of_pos h.isRunChar, List.dropWhile_append_of_pos h.isRunChar]
    simp [Toml.isRunChar]
  have hscalar : scalar? (token ++ '\n' :: rest) = some (v, '\n' :: rest) := by
    rw [scalar?, hrun, h.plain]
  obtain ⟨c, cs, rfl, hc⟩ :=
    exists_cons_of_forall h.ne_nil h.isRunChar ['[', '{', '"', '\''] (by simp; decide)
  simp only [List.mem_cons, List.not_mem_nil, or_false, not_or] at hc
  obtain ⟨hbracket, hbrace, hdouble, hsingle⟩ := hc
  rw [← hscalar]
  simp [value?, text?, lineText?, hbracket, hbrace, hdouble, hsingle]

/-! ## Statements -/

/-- A key that is written without quotes. -/
def IsBare (name : List Char) : Prop := name ≠ [] ∧ ∀ c ∈ name, isKeyChar c = true

variable {name : List Char}

theorem IsBare.exists_cons (h : IsBare name) (marks : List Char)
    (hmarks : ∀ c ∈ marks, isKeyChar c = false) : ∃ c cs, name = c :: cs ∧ c ∉ marks :=
  exists_cons_of_forall h.1 h.2 marks hmarks

theorem key?_isBare (h : IsBare name) {tail : List Char} (htail : tail.takeWhile isKeyChar = []) :
    key? (name ++ tail) = some (String.ofList name, tail) := by
  obtain ⟨c, cs, hname, hc⟩ := h.exists_cons ['"', '\''] (by simp; decide)
  have htext : lineText? (name ++ tail) = none := by
    simp only [List.mem_cons, List.not_mem_nil, or_false, not_or] at hc
    simp [hname, lineText?, hc.1, hc.2]
  have hrest : tail.dropWhile isKeyChar = tail := by
    simpa [htail] using List.takeWhile_append_dropWhile (p := isKeyChar) (l := tail)
  have hname : name.isEmpty = false := by simp [hname]
  simp [key?, htext, List.takeWhile_append_of_pos h.2, List.dropWhile_append_of_pos h.2, htail,
    hrest, hname]

/-- One key is the whole path where no dot comes after it. -/
theorem path?_isBare (h : IsBare name) (room : Nat) {tail rest : List Char} {c : Char}
    (htail : tail.takeWhile isKeyChar = []) (hskip : skipSpace tail = c :: rest) (hc : c ≠ '.') :
    path? (room + 1) (name ++ tail) = some ([String.ofList name], c :: rest) := by
  obtain ⟨d, ds, hname, hd⟩ := h.exists_cons [' ', '\t'] (by simp; decide)
  have hspace : skipSpace (name ++ tail) = name ++ tail := by
    rw [hname, List.cons_append, skipSpace_cons hd]
  simp [path?, hspace, key?_isBare h htail, hskip, hc]

theorem statement?_header (h : IsBare name) (rest : List Char) :
    statement? ('[' :: (name ++ ']' :: rest)) = some (.header [String.ofList name], rest) := by
  have hpath : path? maxKeys (name ++ ']' :: rest) = some ([String.ofList name], ']' :: rest) :=
    path?_isBare h 78 (by rfl) (by rfl) (by decide)
  obtain ⟨c, cs, hname, hc⟩ := h.exists_cons ['['] (by simp; decide)
  simp only [List.mem_singleton] at hc
  rw [statement?]
  · simp [hpath, mark?]
  · intro tail heq
    rw [hname] at heq
    exact hc (by simpa using congrArg List.head? heq)

theorem statement?_assign (h : IsBare name) (hv : IsScalar token v) (rest : List Char) :
    statement? (name ++ ' ' :: '=' :: ' ' :: (token ++ '\n' :: rest)) =
      some (.assign [String.ofList name] v, '\n' :: rest) := by
  have hpath : path? maxKeys (name ++ ' ' :: '=' :: ' ' :: (token ++ '\n' :: rest)) =
      some ([String.ofList name], '=' :: ' ' :: (token ++ '\n' :: rest)) :=
    path?_isBare h 78 (by rfl) (by rfl) (by decide)
  have hvalue : skipSpace (' ' :: (token ++ '\n' :: rest)) = token ++ '\n' :: rest := by
    obtain ⟨c, cs, rfl, hc⟩ :=
      exists_cons_of_forall hv.ne_nil hv.isRunChar [' ', '\t'] (by simp; decide)
    have hblank : skipSpace (' ' :: (c :: cs ++ '\n' :: rest)) = skipSpace (c :: cs ++ '\n' :: rest) :=
      rfl
    rw [hblank, List.cons_append, skipSpace_cons hc]
  obtain ⟨c, cs, hname, hc⟩ := h.exists_cons ['['] (by simp; decide)
  simp only [List.mem_singleton] at hc
  have hfirst (tail rest : List Char) : name ++ tail ≠ '[' :: rest := by
    intro heq
    rw [hname] at heq
    exact hc (by simpa using congrArg List.head? heq)
  rw [statement?]
  · simp [pair?, hpath, mark?, hvalue, value?_isScalar hv]
  · exact fun _ => hfirst _ _
  · exact fun _ => hfirst _ _

/-! ## Documents -/

/-- What a text, up to the end of one of its lines, says whatever comes after it. -/
structure Says (text : List Char) (statements : List Statement) : Prop where
  cut : ∀ fuel rest, statements? (statements.length + fuel) (text ++ rest) =
    (statements? fuel rest).map (statements ++ ·)
  length_le : statements.length ≤ text.length
  unmarked : text.head? ≠ some '\uFEFF'

theorem Says.nil : Says [] [] := by
  refine ⟨fun fuel rest => ?_, Nat.le_refl 0, by simp⟩
  simp

theorem Says.append {text₁ text₂ : List Char} {statements₁ statements₂ : List Statement}
    (h₁ : Says text₁ statements₁) (h₂ : Says text₂ statements₂) :
    Says (text₁ ++ text₂) (statements₁ ++ statements₂) := by
  refine ⟨fun fuel rest => ?_, ?_, ?_⟩
  · rw [List.length_append, Nat.add_assoc, List.append_assoc, h₁.cut, h₂.cut, Option.map_map]
    congr 1
    funext statements
    simp
  · have := h₁.length_le
    have := h₂.length_le
    simp only [List.length_append]
    omega
  · cases text₁ with
    | nil => exact h₂.unmarked
    | cons c cs => exact h₁.unmarked

theorem statements?_newline (fuel : Nat) (rest : List Char) :
    statements? fuel ('\n' :: rest) = statements? fuel rest := by
  cases fuel with
  | zero => rfl
  | succ fuel => simp [statements?, skip?]

/-- Empty lines say nothing. -/
theorem Says.newline {text : List Char} {statements : List Statement} (h : Says text statements) :
    Says ('\n' :: text) statements := by
  refine ⟨fun fuel rest => ?_, Nat.le_succ_of_le h.length_le, by simp⟩
  rw [List.cons_append, statements?_newline, h.cut]

theorem Says.newlines {text : List Char} {statements : List Statement} (h : Says text statements)
    (n : Nat) : Says (List.replicate n '\n' ++ text) statements := by
  induction n with
  | zero => exact h
  | succ n ih => exact ih.newline

/-- A line says its statement. -/
theorem Says.line {text : List Char} {statement : Statement}
    (hfirst : ∃ c cs, text = c :: cs ∧ c ∉ ['\n', '\r', '#', ' ', '\t', '\uFEFF'])
    (h : ∀ rest, statement? (text ++ '\n' :: rest) = some (statement, '\n' :: rest)) :
    Says (text ++ ['\n']) [statement] := by
  obtain ⟨c, cs, rfl, hc⟩ := hfirst
  simp only [List.mem_cons, List.not_mem_nil, or_false, not_or] at hc
  obtain ⟨hnewline, hreturn, hcomment, hblank, htab, hmark⟩ := hc
  refine ⟨fun fuel rest => ?_, by simp, by simpa using hmark⟩
  have hskip (cs : List Char) : skip? false (c :: cs) = some (c :: cs) := by
    simp [skip?, hreturn, hcomment, isSpace, hblank, htab]
  have hends : endsLine ('\n' :: rest) = true := by
    simp [endsLine, skipSpace, isSpace, newline?]
  have hstatement := h rest
  simp only [List.cons_append] at hstatement
  rw [List.append_assoc, List.singleton_append, List.length_singleton, Nat.add_comm, statements?,
    List.cons_append, hskip]
  simp [hstatement, hends, statements?_newline, Option.map_eq_bind]

theorem Says.header (h : IsBare name) :
    Says ('[' :: (name ++ [']', '\n'])) [.header [String.ofList name]] := by
  have hline : Says ('[' :: (name ++ [']']) ++ ['\n']) [.header [String.ofList name]] :=
    .line ⟨_, _, rfl, by decide⟩ fun rest => by simpa using statement?_header h ('\n' :: rest)
  simpa using hline

theorem Says.assign (h : IsBare name) (hv : IsScalar token v) :
    Says (name ++ ' ' :: '=' :: ' ' :: (token ++ ['\n'])) [.assign [String.ofList name] v] := by
  obtain ⟨c, cs, hname, hc⟩ :=
    h.exists_cons ['\n', '\r', '#', ' ', '\t', '\uFEFF'] (by simp; decide)
  have hline : Says (name ++ ' ' :: '=' :: ' ' :: token ++ ['\n'])
      [.assign [String.ofList name] v] :=
    .line ⟨c, cs ++ ' ' :: '=' :: ' ' :: token, by simp [hname], hc⟩ fun rest => by
      simpa using statement?_assign h hv rest
  simpa using hline

theorem read?_of_says {s : String} {statements : List Statement} (h : Says s.toList statements) :
    read? s = build? statements := by
  have hmark : withoutByteOrderMark s.toList = s.toList := by
    unfold withoutByteOrderMark
    split
    · rename_i cs hcs
      exact absurd (by simp [hcs]) h.unmarked
    · rfl
  obtain ⟨fuel, hfuel⟩ := Nat.exists_eq_add_of_le h.length_le
  have hcut := h.cut (fuel + 1) []
  rw [List.append_nil, ← Nat.add_assoc, ← hfuel] at hcut
  have hend : statements? (fuel + 1) [] = some [] := by simp [statements?, skip?]
  simp [read?, hmark, hcut, hend]

/-! ## Tables -/

/-- What a document says under one key: a value, or a table with a header of its own. -/
inductive Block
  | value (v : Toml)
  | table (fields : Items)

namespace Block

def statements (key : String) : Block → List Statement
  | .value v => [.assign [key] v]
  | .table fields => .header [key] :: fields.map fun (name, v) => .assign [name] v

def toToml : Block → Toml
  | .value v => v
  | .table fields => .table .opened fields

def isTable : Block → Bool
  | .value _ => false
  | .table _ => true

end Block

namespace Items

theorem find?_eq_none_iff {key : String} {items : Items} :
    items.find? key = none ↔ ∀ item ∈ items, item.1 ≠ key := by
  simp [find?]

theorem find?_add_self {key : String} {items : Items} (h : items.find? key = none) (v : Toml) :
    (items.add key v).find? key = some v := by
  have hold : List.find? (·.1 = key) items = none := by simpa [find?] using h
  simp [find?, add, List.find?_append, hold]

theorem find?_add_of_ne {key other : String} {items : Items} {v : Toml}
    (h : items.find? other = none) (hne : key ≠ other) : (items.add key v).find? other = none := by
  rw [find?_eq_none_iff] at h ⊢
  intro item hitem
  rcases List.mem_append.mp hitem with hitem | hitem
  · exact h item hitem
  · rw [List.mem_singleton.mp hitem]
    exact hne

theorem put_add_self {key : String} {items : Items} (h : items.find? key = none) (v w : Toml) :
    (items.add key v).put key w = items.add key w := by
  have hold : items.map (fun item => if item.1 = key then (key, w) else item) = items := by
    conv_rhs => rw [← List.map_id items]
    refine List.map_congr_left fun item hitem => ?_
    rw [if_neg (find?_eq_none_iff.mp h item hitem), id]
  simp [put, add, hold]

end Items

variable {d : Draft} {key : String} {items sub fields : Items}

theorem add_value (hcurrent : d.current = []) (hkey : d.items.find? key = none) (v : Toml) :
    d.add (.assign [key] v) = some { d with items := d.items.add key v } := by
  simp [Draft.add, hcurrent, Items.change, Items.assign, hkey]

theorem add_header (hkey : d.items.find? key = none) :
    d.add (.header [key]) = some ⟨d.items.add key (.table .opened []), [key]⟩ := by
  simp [Draft.add, Items.change, Items.openTable, hkey]

theorem add_field {name : String} (hkey : items.find? key = none)
    (hname : sub.find? name = none) (v : Toml) :
    Draft.add ⟨items.add key (.table .opened sub), [key]⟩ (.assign [name] v) =
      some ⟨items.add key (.table .opened (sub.add name v)), [key]⟩ := by
  simp [Draft.add, Items.change, Items.assign, Items.find?_add_self hkey, hname,
    Items.put_add_self hkey]

theorem foldlM_fields (sub : Items) (hkey : items.find? key = none)
    (hnew : ∀ field ∈ fields, sub.find? field.1 = none) (hnodup : (fields.map (·.1)).Nodup) :
    (fields.map fun (name, v) => Statement.assign [name] v).foldlM Draft.add
        ⟨items.add key (.table .opened sub), [key]⟩ =
      some ⟨items.add key (.table .opened (sub ++ fields)), [key]⟩ := by
  induction fields generalizing sub with
  | nil => simp
  | cons field fields ih =>
    obtain ⟨name, v⟩ := field
    rw [List.map_cons, List.nodup_cons] at hnodup
    have hname := hnew (name, v) List.mem_cons_self
    have hlater : ∀ field ∈ fields, (sub.add name v).find? field.1 = none := by
      intro field hfield
      have hne : name ≠ field.1 := by
        rintro rfl
        exact hnodup.1 (List.mem_map.mpr ⟨field, hfield, rfl⟩)
      exact Items.find?_add_of_ne (hnew field (List.mem_cons_of_mem _ hfield)) hne
    rw [List.map_cons, List.foldlM_cons, add_field hkey hname, Option.bind_eq_bind,
      Option.bind_some, ih (sub.add name v) hlater hnodup.2]
    simp [Items.add]

/-- A block becomes one item. Only a value has to come before all tables. -/
theorem foldlM_block {block : Block} (hkey : d.items.find? key = none)
    (hcurrent : d.current ≠ [] → block.isTable)
    (hfields : ∀ fields, block = .table fields → (fields.map (·.1)).Nodup) :
    ∃ current, (block.statements key).foldlM Draft.add d =
        some ⟨d.items.add key block.toToml, current⟩ ∧ (current ≠ [] → block.isTable) := by
  cases block with
  | value v =>
    have hroot : d.current = [] := by
      by_contra h
      simpa [Block.isTable] using hcurrent h
    exact ⟨[], by simp [Block.statements, Block.toToml, add_value hroot hkey, hroot], by simp⟩
  | table fields =>
    refine ⟨[key], ?_, fun _ => rfl⟩
    have hfold := foldlM_fields [] hkey (by simp [Items.find?]) (hfields fields rfl)
    simpa [Block.statements, Block.toToml, add_header hkey] using hfold

/-- Blocks that can be written one after another. -/
structure Ordered (blocks : List (String × Block)) : Prop where
  keys : (blocks.map (·.1)).Nodup
  fields : ∀ key fields, (key, .table fields) ∈ blocks → (fields.map (·.1)).Nodup
  valuesFirst : blocks.Pairwise fun block later => block.2.isTable → later.2.isTable

theorem foldlM_blocks {blocks : List (String × Block)} (h : Ordered blocks)
    (hnew : ∀ block ∈ blocks, d.items.find? block.1 = none)
    (hcurrent : d.current ≠ [] → ∀ block ∈ blocks, block.2.isTable) :
    ((blocks.flatMap fun (key, block) => block.statements key).foldlM Draft.add d).map (·.items) =
      some (d.items ++ blocks.map fun (key, block) => (key, block.toToml)) := by
  induction blocks generalizing d with
  | nil => simp
  | cons first blocks ih =>
    obtain ⟨key, block⟩ := first
    obtain ⟨hkeys, hfields, horder⟩ := h
    rw [List.map_cons, List.nodup_cons] at hkeys
    rw [List.pairwise_cons] at horder
    obtain ⟨current, hfold, htable⟩ := foldlM_block (hnew (key, block) List.mem_cons_self)
      (fun h => hcurrent h (key, block) List.mem_cons_self)
      (fun fields h => hfields key fields (h ▸ List.mem_cons_self))
    have hlater : ∀ later ∈ blocks, (d.items.add key block.toToml).find? later.1 = none := by
      intro later hmem
      have hne : key ≠ later.1 := by
        rintro rfl
        exact hkeys.1 (List.mem_map.mpr ⟨later, hmem, rfl⟩)
      exact Items.find?_add_of_ne (hnew later (List.mem_cons_of_mem _ hmem)) hne
    have hrest : Ordered blocks :=
      ⟨hkeys.2, fun key fields h => hfields key fields (List.mem_cons_of_mem _ h), horder.2⟩
    have htables : current ≠ [] → ∀ later ∈ blocks, later.2.isTable := fun h later hmem =>
      horder.1 later hmem (htable h)
    rw [List.flatMap_cons, List.foldlM_append, hfold, Option.bind_eq_bind, Option.bind_some,
      ih hrest hlater htables]
    simp [Items.add]

theorem build?_blocks {blocks : List (String × Block)} (h : Ordered blocks) :
    build? (blocks.flatMap fun (key, block) => block.statements key) =
      some (blocks.map fun (key, block) => (key, block.toToml)) := by
  have hfold := foldlM_blocks (d := {}) h (by simp [Items.find?]) (by simp)
  simpa [build?] using hfold

end TagCatalog.Toml
