import Statechart.Json.Reader
import Mathlib.Algebra.Group.Int.Defs
import Mathlib.Data.List.Basic

/-!
# Reading numerals

Every number is written as a numeral of the grammar: there are `Numeral.Parts` that the grammar
allows and whose text it is (`Number.exists_parts`). Such a text is read as these parts, up to the
comma or bracket that ends it (`Reader.numeral?_append`). What the reader makes of a written number
thus depends on the number alone, and is `Number.reread`.

An integer that fits into 64 bits is read as itself (`Number.reread_int`). A double need not be: it
may come back as a neighbour.
-/

namespace Statechart

/-! ### Digits -/

theorem Decimal.digitChar_eq_zero_iff {d : Nat} (h : d < 10) : digitChar d = '0' ↔ d = 0 := by
  refine ⟨fun heq ↦ ?_, fun heq ↦ heq ▸ rfl⟩
  rw [← digitValue_digitChar h, heq]
  rfl

theorem Decimal.digits_zero : digits 0 = ['0'] := by
  rw [digits]
  rfl

/-- Only zero is written with a zero in front. -/
theorem Decimal.eq_zero_of_head_digits {n : Nat} (h : (digits n).head? = some '0') : n = 0 := by
  induction n using digits.induct with
  | case1 n hn =>
    rw [digits, if_pos hn, List.head?_cons] at h
    exact (digitChar_eq_zero_iff hn).1 (Option.some.inj h)
  | case2 n hn ih =>
    rw [digits, if_neg hn, List.head?_append_of_ne_nil _ (digits_ne_nil _)] at h
    have hzero : n / 10 = 0 := ih h
    omega

namespace Numeral

/-- A nonempty run of digits. -/
structure Run (ds : List Char) : Prop where
  ne_nil : ds ≠ []
  isDigit : ∀ c ∈ ds, Decimal.isDigit c = true

theorem run_digits (n : Nat) : Run (Decimal.digits n) :=
  ⟨Decimal.digits_ne_nil n, fun _ ↦ Decimal.isDigit_of_mem_digits⟩

theorem run_zero : Run ['0'] := Decimal.digits_zero ▸ run_digits 0

theorem isDigit_of_mem_zeros {n : Nat} {c : Char} (h : c ∈ zeros n) : Decimal.isDigit c = true :=
  (List.eq_of_mem_replicate h) ▸ rfl

theorem Run.append_zeros {ds : List Char} (h : Run ds) (n : Nat) : Run (ds ++ zeros n) where
  ne_nil := List.append_ne_nil_of_left_ne_nil h.ne_nil _
  isDigit _ hc := (List.mem_append.1 hc).elim (h.isDigit _) isDigit_of_mem_zeros

theorem Run.zeros_append {ds : List Char} (h : Run ds) (n : Nat) : Run (zeros n ++ ds) where
  ne_nil := List.append_ne_nil_of_right_ne_nil _ h.ne_nil
  isDigit _ hc := (List.mem_append.1 hc).elim isDigit_of_mem_zeros (h.isDigit _)

/-! ### The text of parts -/

namespace Parts

/-- The text of a fraction. -/
def fractionChars : Option (List Char) → List Char
  | none => []
  | some ds => '.' :: ds

/-- The text of an exponent, which always has a sign. -/
def exponentChars : Option (Bool × List Char) → List Char
  | none => []
  | some (below, ds) => 'e' :: (if below then '-' else '+') :: ds

/-- The text of a numeral without its sign. -/
def magnitude (p : Parts) : List Char :=
  p.integer ++ (fractionChars p.fraction ++ exponentChars p.exponent)

/-- The text of a numeral. -/
def chars (p : Parts) : List Char := if p.negative then '-' :: p.magnitude else p.magnitude

/-- What the grammar asks of a numeral. -/
structure WellFormed (p : Parts) : Prop where
  integer : Run p.integer
  /-- No zero leads but one that stands alone. -/
  leading : p.integer.head? = some '0' → p.integer = ['0']
  fraction : ∀ ds ∈ p.fraction, Run ds
  exponent : ∀ e ∈ p.exponent, Run e.2

end Parts

end Numeral

/-! ### Reading the text of parts -/

namespace Reader

open Numeral

/-- Does a comma or a closing bracket come next, if anything does? -/
def Ended (rest : List Char) : Prop := ∀ c ∈ rest.head?, c = ',' ∨ c = ']' ∨ c = '\x7d'

theorem ended_nil : Ended [] := by simp [Ended]

theorem ended_cons {c : Char} (h : c = ',' ∨ c = ']' ∨ c = '\x7d') (rest : List Char) :
    Ended (c :: rest) := fun _ hc ↦ Option.some.inj hc ▸ h

variable {ds rest : List Char}

/-- A run of digits is read up to the first character that is none. -/
theorem digits_append (hds : ∀ c ∈ ds, Decimal.isDigit c = true)
    (hrest : ∀ c ∈ rest.head?, Decimal.isDigit c = false) : digits (ds ++ rest) = (ds, rest) := by
  have hstop : rest.takeWhile Decimal.isDigit = [] ∧ rest.dropWhile Decimal.isDigit = rest := by
    cases rest with
    | nil => exact ⟨rfl, rfl⟩
    | cons c rest =>
      have hc : ¬ Decimal.isDigit c = true := Bool.eq_false_iff.1 (hrest c rfl)
      exact ⟨List.takeWhile_cons_of_neg hc, List.dropWhile_cons_of_neg hc⟩
  rw [digits, List.takeWhile_append_of_pos hds, List.dropWhile_append_of_pos hds, hstop.1, hstop.2,
    List.append_nil]

theorem integerPart?_append (hds : Run ds) (hlead : ds.head? = some '0' → ds = ['0'])
    (hrest : ∀ c ∈ rest.head?, Decimal.isDigit c = false) :
    integerPart? (ds ++ rest) = some (ds, rest) := by
  rw [integerPart?, digits_append hds.isDigit hrest]
  split
  · next heq => exact absurd (Prod.mk.inj heq).1 hds.ne_nil
  · next heq =>
    obtain ⟨rfl, rfl⟩ := Prod.mk.inj heq
    rfl
  · next hnot heq =>
    obtain ⟨rfl, rfl⟩ := Prod.mk.inj heq
    exact absurd (List.cons.inj (hlead rfl)).2 hnot
  · next heq =>
    obtain ⟨rfl, rfl⟩ := Prod.mk.inj heq
    rfl

theorem exponentDigits?_append (below : Bool) (hds : Run ds)
    (hrest : ∀ c ∈ rest.head?, Decimal.isDigit c = false) :
    exponentDigits? below (ds ++ rest) = some (some (below, ds), rest) := by
  rw [exponentDigits?, digits_append hds.isDigit hrest]
  split
  · next heq => exact absurd (Prod.mk.inj heq).1 hds.ne_nil
  · next heq =>
    obtain ⟨rfl, rfl⟩ := Prod.mk.inj heq
    rfl

variable (hrest : Ended rest)

include hrest

theorem Ended.isDigit_eq_false : ∀ c ∈ rest.head?, Decimal.isDigit c = false := by
  intro c hc
  rcases hrest c hc with rfl | rfl | rfl <;> rfl

theorem exponentPart?_append {e : Option (Bool × List Char)} (he : ∀ x ∈ e, Run x.2) :
    exponentPart? (Parts.exponentChars e ++ rest) = some (e, rest) := by
  cases e with
  | some e =>
    obtain ⟨below, ds⟩ := e
    have hread := exponentDigits?_append below (he _ rfl) hrest.isDigit_eq_false
    cases below <;> exact hread
  | none =>
    rw [Parts.exponentChars, List.nil_append]
    cases rest with
    | nil => rfl
    | cons c rest =>
      have hc : ¬ (c = 'e' ∨ c = 'E') := by
        rcases hrest c rfl with rfl | rfl | rfl <;> decide
      exact if_neg hc

/-- After an exponent, or where there is none, no digit and no point comes next. -/
theorem head_exponentChars {e : Option (Bool × List Char)} {c : Char}
    (hc : c ∈ (Parts.exponentChars e ++ rest).head?) : Decimal.isDigit c = false ∧ c ≠ '.' := by
  cases e with
  | some e => exact Option.some.inj hc ▸ by decide
  | none => rcases hrest c hc with rfl | rfl | rfl <;> decide

theorem fractionPart?_append {f : Option (List Char)} (hf : ∀ ds ∈ f, Run ds)
    (e : Option (Bool × List Char)) :
    fractionPart? (Parts.fractionChars f ++ (Parts.exponentChars e ++ rest)) =
      some (f, Parts.exponentChars e ++ rest) := by
  have hhead := fun c ↦ head_exponentChars hrest (e := e) (c := c)
  generalize Parts.exponentChars e ++ rest = cs at hhead
  cases f with
  | some ds =>
    have hdigits := digits_append (hf ds rfl).isDigit fun c hc ↦ (hhead c hc).1
    rw [Parts.fractionChars, List.cons_append, fractionPart?, hdigits]
    split
    · next heq => exact absurd (Prod.mk.inj heq).1 (hf ds rfl).ne_nil
    · next heq =>
      obtain ⟨rfl, rfl⟩ := Prod.mk.inj heq
      rfl
  | none =>
    rw [Parts.fractionChars, List.nil_append, fractionPart?]
    exact fun tail hpoint ↦ (hhead '.' (hpoint ▸ rfl)).2 rfl

/-- The text of a numeral of the grammar is read as its parts. -/
theorem numeral?_append {p : Parts} (hp : p.WellFormed) :
    numeral? (p.chars ++ rest) = some (p, rest) := by
  have hexponent := exponentPart?_append hrest hp.exponent
  have hfraction := fractionPart?_append hrest hp.fraction p.exponent
  have hhead : ∀ c ∈ (Parts.fractionChars p.fraction ++
      (Parts.exponentChars p.exponent ++ rest)).head?, Decimal.isDigit c = false := by
    cases p.fraction with
    | some ds => exact fun c hc ↦ Option.some.inj hc ▸ rfl
    | none => exact fun c hc ↦ (head_exponentChars hrest hc).1
  have hinteger := integerPart?_append hp.integer hp.leading hhead
  have hmagnitude : p.magnitude ++ rest = p.integer ++ (Parts.fractionChars p.fraction ++
      (Parts.exponentChars p.exponent ++ rest)) := by
    rw [Parts.magnitude, List.append_assoc, List.append_assoc]
  have hminus : ∀ cs, p.magnitude ++ rest = '-' :: cs → False := by
    intro cs hcs
    obtain ⟨d, ds, hds⟩ := List.exists_cons_of_ne_nil hp.integer.ne_nil
    rw [hmagnitude, hds] at hcs
    have hdigit : Decimal.isDigit '-' = true :=
      (List.cons.inj hcs).1 ▸ hp.integer.isDigit d (hds ▸ List.mem_cons_self)
    exact absurd hdigit (by decide)
  cases hsign : p.negative with
  | true =>
    rw [Parts.chars, if_pos hsign, List.cons_append, numeral?, hmagnitude]
    simp only [hinteger, hfraction, hexponent, Option.bind_eq_bind, Option.bind_some,
      Option.pure_def, ← hsign]
  | false =>
    rw [Parts.chars, if_neg (Bool.eq_false_iff.1 hsign), numeral?, hmagnitude]
    · simp only [hinteger, hfraction, hexponent, Option.bind_eq_bind, Option.bind_some,
        Option.pure_def, ← hsign]
    · exact hminus

end Reader

/-! ### The shortest decimal -/

namespace Binary64

theorem stepsOf_pos {r : Nat} (h : r ≠ 0) : 0 < stepsOf r := by
  refine Nat.mul_pos ?_ (Nat.pow_pos Nat.zero_lt_two)
  rw [significandOf]
  split
  · exact Nat.pos_of_ne_zero h
  · exact Nat.add_pos_left (Nat.pow_pos Nat.zero_lt_two) _

/-- Nothing but zero rounds to zero. -/
theorem ne_zero_of_roundsTo {r : Nat} {d : Decimal} (hr : r ≠ 0) (h : roundsTo r d = true) :
    d.coefficient ≠ 0 := by
  intro hzero
  have hden : 0 < d.fraction.2 := Nat.pow_pos (by decide)
  have hbelow : 0 < (stepsOf (r - 1) + stepsOf r) * d.fraction.2 :=
    Nat.mul_pos (Nat.add_pos_right _ (stepsOf_pos hr)) hden
  have hpoint : 2 * d.fraction.1 * unit = 0 := by
    rw [Decimal.fraction, hzero, Nat.zero_mul, Nat.mul_zero, Nat.zero_mul]
  simp only [roundsTo, hpoint] at h
  split at h
  · exact absurd (of_decide_eq_true (Bool.and_eq_true_iff.1 h).1) (Nat.not_le.2 hbelow)
  · exact absurd (of_decide_eq_true (Bool.and_eq_true_iff.1 h).1) (Nat.not_lt_zero _)

theorem divHalfEven_ne_zero {n d : Nat} (h : n / d ≠ 0) : divHalfEven n d ≠ 0 := by
  rw [divHalfEven]
  split
  · exact h
  · split
    · exact Nat.succ_ne_zero _
    · exact Nat.ne_of_gt (Nat.add_pos_left (Nat.pos_of_ne_zero h) _)

theorem ne_zero_of_gridNeighbour? {r count : Nat} {d : Decimal} (hr : r ≠ 0)
    (h : gridNeighbour? r count = some d) : d.coefficient ≠ 0 := by
  simp only [gridNeighbour?] at h
  generalize stepsOf r * Nat.pow 10 _ = num, unit * Nat.pow 10 _ = den at h
  split at h
  · next hlow _ =>
    rw [← Option.some.inj h]
    exact divHalfEven_ne_zero (ne_zero_of_roundsTo hr hlow)
  · next hlow _ =>
    rw [← Option.some.inj h]
    exact ne_zero_of_roundsTo hr hlow
  · next hhigh =>
    rw [← Option.some.inj h]
    exact ne_zero_of_roundsTo hr hhigh
  · cases h

theorem ne_zero_of_stripped {c : Nat} (h : c ≠ 0) (e : Int) : (stripped c e).coefficient ≠ 0 := by
  induction c, e using stripped.induct with
  | case1 c e hc ih =>
    rw [stripped, if_pos hc]
    exact ih (by omega)
  | case2 c e hc =>
    rw [stripped, if_neg hc]
    exact h

/-- The shortest decimal of a magnitude has digits, or it is plainly zero. -/
theorem shortest_eq_zero_or (r : Nat) :
    shortest r = ⟨0, 0⟩ ∨ (shortest r).coefficient ≠ 0 := by
  rw [shortest]
  split
  · exact .inl rfl
  · next hr =>
    split
    · next d hd =>
      obtain ⟨i, -, hi⟩ := List.exists_of_findSome?_eq_some hd
      exact .inr (ne_zero_of_stripped (ne_zero_of_gridNeighbour? hr hi) _)
    · exact .inl rfl

end Binary64

/-! ### Written numbers -/

namespace Numeral

/-- Is this the text of a numeral of the grammar that has no sign? -/
def Unsigned (cs : List Char) : Prop :=
  ∃ p : Parts, p.WellFormed ∧ p.negative = false ∧ p.chars = cs

/-- The text with a sign in front, if there is one, is a numeral of the grammar. -/
theorem Unsigned.exists_parts {cs : List Char} (h : Unsigned cs) (negative : Bool) :
    ∃ p : Parts, p.WellFormed ∧ p.chars = if negative then '-' :: cs else cs := by
  obtain ⟨p, hp, hsign, rfl⟩ := h
  refine ⟨{ p with negative }, ⟨hp.integer, hp.leading, hp.fraction, hp.exponent⟩, ?_⟩
  rw [Parts.chars, Parts.chars, hsign]
  rfl

/-- The parts of an integer. -/
def intParts (i : Int) : Parts := ⟨decide (i < 0), Decimal.digits i.natAbs, none, none⟩

theorem wellFormed_intParts (i : Int) : (intParts i).WellFormed where
  integer := run_digits _
  leading h := by
    have hzero : i.natAbs = 0 := Decimal.eq_zero_of_head_digits h
    exact (congrArg Decimal.digits hzero).trans Decimal.digits_zero
  fraction := by simp [intParts]
  exponent := by simp [intParts]

theorem chars_intParts (i : Int) : (intParts i).chars = intChars i := by
  have hmagnitude : (intParts i).magnitude = Decimal.digits i.natAbs := List.append_nil _
  rw [Parts.chars, hmagnitude, intChars]
  exact if_congr decide_eq_true_iff rfl rfl

/-- The parts of an integer that fits into 64 bits stand for the integer. -/
theorem number?_intParts {i : Int} (hleast : -2 ^ 63 ≤ i) (hgreatest : i < 2 ^ 64) :
    (intParts i).number? = some (.int i) := by
  simp only [intParts, Parts.number?, Decimal.value_digits]
  by_cases hi : i < 0
  · have hfits : i.natAbs ≠ 0 ∧ i.natAbs ≤ Nat.pow 2 63 := by
      have hpow : Nat.pow 2 63 = 2 ^ 63 := rfl
      omega
    rw [if_pos (decide_eq_true hi), if_pos hfits, Int.ofNat_natAbs_of_nonpos (Int.le_of_lt hi),
      Int.neg_neg]
  · have hfits : i.natAbs ≤ wordMax := by
      have hmax : wordMax = 2 ^ 64 - 1 := rfl
      omega
    rw [if_neg (fun h ↦ hi (of_decide_eq_true h)), if_pos hfits,
      Int.natAbs_of_nonneg (Int.not_lt.1 hi)]

/-- A decimal in positional form. It has digits, or it is plainly zero. -/
theorem unsigned_positional {c : Nat} {e : Int} (h : c = 0 → e = 0) :
    Unsigned (positional (Decimal.digits c) e) := by
  have hrun := run_digits c
  have hlead : (Decimal.digits c).head? = some '0' → c = 0 := Decimal.eq_zero_of_head_digits
  have hzero : c = 0 → Decimal.digits c = ['0'] := fun hc ↦ hc ▸ Decimal.digits_zero
  rw [positional]
  generalize Decimal.digits c = ds at hrun hlead hzero
  split
  · -- zeros stand before the point, and another one after it
    refine ⟨⟨false, ds ++ zeros e.toNat, some ['0'], none⟩,
      ⟨hrun.append_zeros _, fun hhead ↦ ?_, ?_, by simp⟩, rfl, rfl⟩
    · have hc := hlead (List.head?_append_of_ne_nil ds hrun.ne_nil ▸ hhead)
      rw [hzero hc, h hc]
      rfl
    · exact fun f hf ↦ Option.some.inj hf ▸ run_zero
  · next hneg =>
    have hc : c ≠ 0 := fun hc ↦ hneg (Int.le_of_eq (h hc).symm)
    split
    · next hpoint =>
      -- the point stands between the digits
      generalize hcount : ((ds.length : Int) + e).toNat = count
      have hpos : 0 < count := by omega
      have hlt : count < ds.length := by omega
      refine ⟨⟨false, ds.take count, some (ds.drop count), none⟩,
        ⟨⟨?_, ?_⟩, fun hhead ↦ ?_, ?_, by simp⟩, rfl, ?_⟩
      · exact fun hnil ↦ hrun.ne_nil
          ((List.take_eq_nil_iff.1 hnil).resolve_left (Nat.ne_of_gt hpos))
      · exact fun x hx ↦ hrun.isDigit x (List.mem_of_mem_take hx)
      · rw [List.head?_take, if_neg (Nat.ne_of_gt hpos)] at hhead
        exact absurd (hlead hhead) hc
      · refine fun f hf ↦ Option.some.inj hf ▸ ⟨fun hnil ↦ ?_, fun x hx ↦ ?_⟩
        · exact absurd (List.drop_eq_nil_iff.1 hnil) (Nat.not_le.2 hlt)
        · exact hrun.isDigit x (List.mem_of_mem_drop hx)
      · exact congrArg (ds.take count ++ ·) (List.append_nil _)
    · -- zeros stand after the point
      refine ⟨⟨false, ['0'], some (zeros (-((ds.length : Int) + e)).toNat ++ ds), none⟩,
        ⟨run_zero, fun _ ↦ rfl, ?_, by simp⟩, rfl, ?_⟩
      · exact fun f hf ↦ Option.some.inj hf ▸ hrun.zeros_append _
      · exact congrArg ('0' :: '.' :: ·) (List.append_nil _)

theorem unsigned_scientific (c : Nat) (leading : Int) :
    Unsigned (scientific (Decimal.digits c) leading) := by
  have hrun := run_digits c
  let exponent := some (decide (leading < 0), Decimal.digits leading.natAbs)
  have hexponent : ∀ e ∈ exponent, Run e.2 := fun e he ↦ Option.some.inj he ▸ run_digits _
  have hsign : (if leading < 0 then '-' else '+') = if decide (leading < 0) then '-' else '+' := by
    by_cases h : leading < 0 <;> simp [h]
  unfold scientific
  cases hds : Decimal.digits c with
  | nil => exact absurd hds hrun.ne_nil
  | cons d ds =>
    cases ds with
    | nil =>
      refine ⟨⟨false, [d], none, exponent⟩,
        ⟨hds ▸ hrun, fun h ↦ ?_, by simp, hexponent⟩, rfl, ?_⟩
      · exact congrArg ([·]) (Option.some.inj h)
      · rw [hsign]
        rfl
    | cons x ds =>
      have hall := hds ▸ hrun.isDigit
      refine ⟨⟨false, [d], some (x :: ds), exponent⟩,
        ⟨⟨List.cons_ne_nil _ _, ?_⟩, fun h ↦ ?_, ?_, hexponent⟩, rfl, ?_⟩
      · exact fun y hy ↦ hall y (List.mem_singleton.1 hy ▸ List.mem_cons_self)
      · exact congrArg ([·]) (Option.some.inj h)
      · exact fun f hf ↦ Option.some.inj hf ▸
          ⟨List.cons_ne_nil _ _, fun y hy ↦ hall y (List.mem_cons_of_mem _ hy)⟩
      · rw [hsign]
        rfl

theorem unsigned_magnitudeChars (rank : Nat) : Unsigned (magnitudeChars rank) := by
  rw [magnitudeChars]
  split
  · have hzero := unsigned_positional (c := 0) (e := 0) fun _ ↦ rfl
    rw [Decimal.digits_zero] at hzero
    exact hzero
  · simp only
    split
    · refine unsigned_positional fun hc ↦ ?_
      exact ((Binary64.shortest_eq_zero_or rank).resolve_right (absurd hc ·)) ▸ rfl
    · exact unsigned_scientific _ _

end Numeral

namespace Number

open Numeral

/-- Every number is written as a numeral of the grammar. -/
theorem exists_parts (n : Number) : ∃ p : Parts, p.WellFormed ∧ p.chars = n.chars := by
  cases n with
  | int i => exact ⟨intParts i, wellFormed_intParts i, chars_intParts i⟩
  | real x => exact (unsigned_magnitudeChars x.rank).exists_parts x.negative

/-- What the text of a number is read as. -/
def reread (n : Number) : Document := (Reader.number n.chars).1

/-- A text is read as the number that its parts stand for, if they stand for one. -/
theorem number_of_numeral? {cs rest : List Char} {p : Parts}
    (h : Reader.numeral? cs = some (p, rest)) :
    Reader.number cs = ((p.number?.map .number).getD (.fault .unreadable), rest) := by
  simp only [Reader.number, h]
  cases p.number? <;> rfl

variable {n : Number} {p : Parts}

theorem reread_of_parts (hp : p.WellFormed) (hchars : p.chars = n.chars) :
    n.reread = (p.number?.map .number).getD (.fault .unreadable) := by
  have hnumeral := Reader.numeral?_append Reader.ended_nil hp
  rw [List.append_nil, hchars] at hnumeral
  rw [reread, number_of_numeral? hnumeral]

/-- A written number is read up to the comma or bracket that ends it. -/
theorem number_append (n : Number) {rest : List Char} (hrest : Reader.Ended rest) :
    Reader.number (n.chars ++ rest) = (n.reread, rest) := by
  obtain ⟨p, hp, hchars⟩ := n.exists_parts
  rw [reread_of_parts hp hchars, ← hchars, number_of_numeral? (Reader.numeral?_append hrest hp)]

/-- A number is read as a number unless it cannot be read. -/
theorem reread_eq_fault_or (n : Number) :
    n.reread = .fault .unreadable ∨ ∃ k, n.reread = .number k := by
  obtain ⟨p, hp, hchars⟩ := n.exists_parts
  rw [reread_of_parts hp hchars]
  cases p.number? with
  | none => exact .inl rfl
  | some k => exact .inr ⟨k, rfl⟩

/-- An integer that fits into 64 bits is read as itself. -/
theorem reread_int {i : Int} (hleast : -2 ^ 63 ≤ i) (hgreatest : i < 2 ^ 64) :
    (int i).reread = .number (.int i) := by
  rw [reread_of_parts (n := .int i) (wellFormed_intParts i) (chars_intParts i),
    number?_intParts hleast hgreatest]
  rfl

/-- A numeral starts with a digit or a sign. -/
theorem exists_chars_eq_cons (n : Number) :
    ∃ c cs, n.chars = c :: cs ∧ (Decimal.isDigit c = true ∨ c = '-') := by
  obtain ⟨p, hp, hchars⟩ := n.exists_parts
  obtain ⟨d, ds, hds⟩ := List.exists_cons_of_ne_nil hp.integer.ne_nil
  rw [← hchars, Parts.chars]
  split
  · exact ⟨'-', _, rfl, .inr rfl⟩
  · rw [Parts.magnitude, hds]
    exact ⟨d, _, rfl, .inl (hp.integer.isDigit d (hds ▸ List.mem_cons_self))⟩

end Number

end Statechart
