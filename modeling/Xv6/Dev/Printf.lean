/-
Printed numbers: printint of console.c and printf.c, with the format loops of cprintf and printf around it.

A string is the list of its characters. `str` is the string at an address of the caller's memory, and the arguments are the
words of the stack above fmt. Both printint fill a buffer from the last digit on and print it backwards; they differ in the
letters of their digits.

- `numbers_read_back`: %d, %x and %p print the canonical numeral of their argument, and %u does exactly below 2^31.
- `large_unsigned_is_negative`: %u is signed, so it prints "-1" for 2^32 - 1.
-/
import Mathlib.Data.List.GetD
import Xv6.Param

namespace Xv6.Printf

open Lib List

/-! ## printint -/

def MINUS : Byte := 0x2d
def PERCENT : Byte := 0x25

/-- `digits` of console.c: "0123456789abcdef" -/
def lower : List Byte :=
  [0x30, 0x31, 0x32, 0x33, 0x34, 0x35, 0x36, 0x37, 0x38, 0x39, 0x61, 0x62, 0x63, 0x64, 0x65, 0x66]

/-- `digits` of printf.c: "0123456789ABCDEF" -/
def upper : List Byte :=
  [0x30, 0x31, 0x32, 0x33, 0x34, 0x35, 0x36, 0x37, 0x38, 0x39, 0x41, 0x42, 0x43, 0x44, 0x45, 0x46]

/-- what the digit loop puts into buf -/
def digitLoop (digits : List Byte) (base : ℕ) : ℕ → ℕ → List Byte
  | 0, _ => []
  | fuel + 1, x => digits.getD (x % base) 0 :: if x / base = 0 then [] else digitLoop digits base fuel (x / base)

/-- `buf` of printint: a word has at most 32 digits -/
def digitBuf (digits : List Byte) (xx : Word) (base : ℕ) (sign : Bool) : List Byte :=
  if sign ∧ xx.toInt < 0 then digitLoop digits base 32 (-xx).toNat ++ [MINUS] else digitLoop digits base 32 xx.toNat

/-- printint of console.c -/
def consolePrintint (xx : Word) (base : ℕ) (sign : Bool) : List Byte := (digitBuf lower xx base sign).reverse

/-- printint of printf.c -/
def printint (xx : Word) (base : ℕ) (sgn : Bool) : List Byte := (digitBuf upper xx base sgn).reverse

/-! ## The format loops -/

/-- "(null)" -/
def nullString : List Byte := [0x28, 0x6e, 0x75, 0x6c, 0x6c, 0x29]

section

variable (str : Word → List Byte)

/-- the argument of %s -/
def stringArg (a : Word) : List Byte := if a = 0 then nullString else str a

/-- a conversion of cprintf: what it prints, and whether it takes an argument -/
def consoleConversion (c : Byte) (arg : Word) : List Byte × Bool :=
  if c = 0x75 ∨ c = 0x64 then (consolePrintint arg 10 true, true)
  else if c = 0x78 ∨ c = 0x70 then (consolePrintint arg 16 false, true)
  else if c = 0x73 then (stringArg str arg, true)
  else if c = PERCENT then ([PERCENT], false)
  else ([PERCENT, c], false)

/-- the rest of the arguments -/
def rest (taken : Bool) (args : ℕ → Word) : ℕ → Word := if taken then fun i => args (i + 1) else args

def cprintf : List Byte → (ℕ → Word) → List Byte
  | [], _ => []
  -- a '%' at the end prints nothing
  | [c], _ => if c = PERCENT then [] else [c]
  | c :: d :: fmt, args =>
    if c = PERCENT then
      let r := consoleConversion str d (args 0)
      r.1 ++ cprintf fmt (rest r.2 args)
    else c :: cprintf (d :: fmt) args

/-- a conversion of printf, which has %c too -/
def conversion (c : Byte) (arg : Word) : List Byte × Bool :=
  if c = 0x64 ∨ c = 0x75 then (printint arg 10 true, true)
  else if c = 0x78 ∨ c = 0x70 then (printint arg 16 false, true)
  else if c = 0x73 then (stringArg str arg, true)
  else if c = 0x63 then ([arg.setWidth 8], true)
  else if c = PERCENT then ([PERCENT], false)
  else ([PERCENT, c], false)

/-- the loop of printf; `percent`: state is '%' -/
def printfLoop : Bool → List Byte → (ℕ → Word) → List Byte
  | _, [], _ => []
  | false, c :: fmt, args => if c = PERCENT then printfLoop true fmt args else c :: printfLoop false fmt args
  | true, c :: fmt, args =>
    let r := conversion str c (args 0)
    r.1 ++ printfLoop false fmt (rest r.2 args)

def printf (fmt : List Byte) (args : ℕ → Word) : List Byte := printfLoop str false fmt args

end

/-! ## Numerals -/

/-- the value of a numeral, from its first digit on -/
def value (digits : List Byte) (base : ℕ) (l : List Byte) : ℕ := l.foldl (fun a c => a * base + digits.idxOf c) 0

/-- **l is the canonical numeral of n**: it has digits only, no leading zero, and the value n -/
structure Numeral (digits : List Byte) (base n : ℕ) (l : List Byte) : Prop where
  nonempty : l ≠ []
  digit : ∀ c ∈ l, c ∈ digits.take base
  lead : n ≠ 0 → l.head? ≠ digits.head?
  zero : n = 0 → l.length = 1
  value : Printf.value digits base l = n

/-- a decimal numeral with its sign -/
def Signed (digits : List Byte) (z : ℤ) (l : List Byte) : Prop :=
  if z < 0 then ∃ t, l = MINUS :: t ∧ Numeral digits 10 z.natAbs t else Numeral digits 10 z.toNat l

/-- what a reader makes of it -/
def signedValue (digits : List Byte) (l : List Byte) : ℤ :=
  if l.head? = some MINUS then -value digits 10 l.tail else value digits 10 l

section

variable {digits : List Byte} {base : ℕ}

theorem value_concat (l : List Byte) (c : Byte) : value digits base (l ++ [c]) = value digits base l * base + digits.idxOf c := by
  unfold value
  rw [foldl_append]
  rfl

theorem idxOf_getD (hd : digits.Nodup) {i : ℕ} (hi : i < digits.length) : digits.idxOf (digits.getD i 0) = i := by
  rw [getD_eq_getElem _ _ hi]
  exact hd.idxOf_getElem i hi

/-- the digits come out backwards, so the buffer printed backwards is the numeral -/
theorem numeral_digitLoop (hd : digits.Nodup) (hb : 1 < base) (hlen : base ≤ digits.length) (fuel : ℕ) :
    ∀ x, x < base ^ (fuel + 1) → Numeral digits base x (digitLoop digits base (fuel + 1) x).reverse := by
  have hmod : ∀ x, x % base < digits.length := fun x => (Nat.mod_lt x (by omega)).trans_le hlen
  have hmem : ∀ x, digits.getD (x % base) 0 ∈ digits.take base := by
    intro x
    rw [getD_eq_getElem _ _ (hmod x)]
    exact mem_take_iff_getElem.2 ⟨x % base, by have := Nat.mod_lt x (show 0 < base by omega); omega, rfl⟩
  -- one digit, which is the number
  have hone : ∀ x, x / base = 0 → Numeral digits base x [digits.getD (x % base) 0] := by
    intro x hx
    have hlt : x < base := (Nat.div_eq_zero_iff_lt (by omega)).1 hx
    refine ⟨nofun, ?_, fun hne hhead => ?_, fun _ => rfl, ?_⟩
    · intro c hc
      rw [mem_singleton.1 hc]
      exact hmem x
    · have h0 : digits.head? = some (digits.getD 0 0) := by
        rw [getD_eq_getElem _ _ (by omega), head?_eq_getElem?, getElem?_eq_getElem (by omega)]
      rw [h0] at hhead
      have := congrArg digits.idxOf (Option.some.inj hhead)
      rw [idxOf_getD hd (hmod x), idxOf_getD hd (by omega), Nat.mod_eq_of_lt hlt] at this
      exact hne this
    · show value digits base ([] ++ [digits.getD (x % base) 0]) = x
      rw [value_concat, idxOf_getD hd (hmod x), Nat.mod_eq_of_lt hlt]
      simp [value]
  induction fuel with
  | zero =>
    intro x hx
    have h0 : x / base = 0 := Nat.div_eq_of_lt (by rwa [zero_add, pow_one] at hx)
    rw [digitLoop, if_pos h0]
    exact hone x h0
  | succ fuel ih =>
    intro x hx
    rw [digitLoop]
    by_cases h0 : x / base = 0
    · rw [if_pos h0]
      exact hone x h0
    · have hdiv : x / base < base ^ (fuel + 1) := by
        rw [Nat.div_lt_iff_lt_mul (by omega), ← pow_succ]
        exact hx
      obtain ⟨hne, hdig, hlead, -, hval⟩ := ih (x / base) hdiv
      have hx0 : x ≠ 0 := by
        rintro rfl
        exact h0 (Nat.zero_div base)
      rw [if_neg h0, reverse_cons]
      refine ⟨by simp, ?_, fun _ => ?_, fun h => absurd h hx0, ?_⟩
      · intro c hc
        rcases mem_append.1 hc with hc | hc
        · exact hdig c hc
        · rw [mem_singleton.1 hc]
          exact hmem x
      · rw [head?_append_of_ne_nil _ hne]
        exact hlead h0
      · rw [value_concat, idxOf_getD hd (hmod x), hval]
        exact Nat.div_add_mod' x base

theorem length_digitLoop (fuel : ℕ) : ∀ (k x : ℕ), 0 < base → x < base ^ (k + 1) →
    (digitLoop digits base fuel x).length ≤ k + 1 := by
  induction fuel with
  | zero =>
    intro k x _ _
    exact Nat.zero_le _
  | succ fuel ih =>
    intro k x hb hx
    rw [digitLoop, length_cons]
    split_ifs with h0
    · simp
    · cases k with
      | zero => exact absurd (Nat.div_eq_of_lt (by rwa [zero_add, pow_one] at hx)) h0
      | succ k =>
        have hdiv : x / base < base ^ (k + 1) := by
          rw [Nat.div_lt_iff_lt_mul hb, ← pow_succ]
          exact hx
        have := ih k _ hb hdiv
        omega

/-- **The buffer of 16 bytes is never overrun.** -/
theorem length_digitBuf (xx : Word) (sign : Bool) (hbase : base = 10 ∨ base = 16) :
    (digitBuf digits xx base sign).length ≤ 16 := by
  have hlen : ∀ x : Word, (digitLoop digits base 32 x.toNat).length ≤ 10 := by
    intro x
    have hx := x.isLt
    refine length_digitLoop 32 9 _ (by omega) ?_
    rcases hbase with rfl | rfl <;> omega
  unfold digitBuf
  split_ifs
  · have := hlen (-xx)
    rw [length_append, length_singleton]
    omega
  · have := hlen xx
    omega

end

/-! ## Both printf -/

/-- a table of sixteen digits without '-' -/
structure Table (digits : List Byte) : Prop where
  nodup : digits.Nodup
  length : digits.length = 16
  minus : MINUS ∉ digits

theorem table_lower : Table lower := ⟨by decide, rfl, by decide⟩

theorem table_upper : Table upper := ⟨by decide, rfl, by decide⟩

section

variable {digits : List Byte}

theorem Table.numeral (h : Table digits) {base : ℕ} (hbase : base = 10 ∨ base = 16) (x : Word) :
    Numeral digits base x.toNat (digitLoop digits base 32 x.toNat).reverse := by
  have hx := x.isLt
  refine numeral_digitLoop h.nodup (by omega) (by rw [h.length]; omega) 31 _ ?_
  rcases hbase with rfl | rfl <;> omega

theorem toNat_neg_of_toInt {x : Word} (h : x.toInt < 0) : (-x).toNat = x.toInt.natAbs := by
  have hx := x.isLt
  rw [BitVec.toInt_eq_toNat_cond] at h ⊢
  rw [BitVec.toNat_neg]
  split_ifs at h ⊢ <;> omega

theorem toNat_of_toInt {x : Word} (h : ¬ x.toInt < 0) : x.toNat = x.toInt.toNat := by
  have hx := x.isLt
  rw [BitVec.toInt_eq_toNat_cond] at h ⊢
  split_ifs at h ⊢ <;> omega

theorem Table.signed (h : Table digits) (x : Word) : Signed digits x.toInt (digitBuf digits x 10 true).reverse := by
  unfold Signed digitBuf
  by_cases hx : x.toInt < 0
  · rw [if_pos hx, if_pos ⟨rfl, hx⟩, reverse_append]
    refine ⟨_, rfl, ?_⟩
    rw [← toNat_neg_of_toInt hx]
    exact h.numeral (.inl rfl) (-x)
  · rw [if_neg hx, if_neg fun hc => hx hc.2, ← toNat_of_toInt hx]
    exact h.numeral (.inl rfl) x

theorem Table.unsigned (h : Table digits) {base : ℕ} (hbase : base = 10 ∨ base = 16) (x : Word) :
    Numeral digits base x.toNat (digitBuf digits x base false).reverse := by
  unfold digitBuf
  rw [if_neg nofun]
  exact h.numeral hbase x

theorem Signed.value (ht : Table digits) {z : ℤ} {l : List Byte} (h : Signed digits z l) : signedValue digits l = z := by
  unfold Signed at h
  unfold signedValue
  split_ifs at h with hz
  · obtain ⟨t, rfl, hn⟩ := h
    rw [head?_cons, if_pos rfl, tail_cons, hn.value]
    omega
  · rw [if_neg, h.value]
    · omega
    · intro hm
      exact ht.minus (mem_of_mem_take (h.digit _ (mem_of_head? hm)))

/-- the conversion c prints what P says of its argument, and the rest of the format follows -/
def Converts (out : List Byte → (ℕ → Word) → List Byte) (c : Byte) (P : Word → List Byte → Prop) : Prop :=
  ∀ fmt args, ∃ l, out (PERCENT :: c :: fmt) args = l ++ out fmt (fun i => args (i + 1)) ∧ P (args 0) l

/-- a printf whose conversions for numbers are printint with these digits -/
structure Prints (out : List Byte → (ℕ → Word) → List Byte) (digits : List Byte) : Prop where
  signed : ∀ c : Byte, c = 0x64 ∨ c = 0x75 → Converts out c fun x l => l = (digitBuf digits x 10 true).reverse
  unsigned : ∀ c : Byte, c = 0x78 ∨ c = 0x70 → Converts out c fun x l => l = (digitBuf digits x 16 false).reverse

theorem cprintf_prints (str : Word → List Byte) : Prints (cprintf str) lower := by
  refine ⟨fun c hc fmt args => ?_, fun c hc fmt args => ?_⟩
  · refine ⟨_, ?_, rfl⟩
    rw [cprintf, if_pos rfl, consoleConversion, if_pos hc.symm]
    rfl
  · refine ⟨_, ?_, rfl⟩
    rw [cprintf, if_pos rfl, consoleConversion, if_neg (by rcases hc with rfl | rfl <;> decide), if_pos hc]
    rfl

theorem printf_prints (str : Word → List Byte) : Prints (printf str) upper := by
  refine ⟨fun c hc fmt args => ?_, fun c hc fmt args => ?_⟩
  · refine ⟨_, ?_, rfl⟩
    rw [printf, printfLoop, if_pos rfl, printfLoop, conversion, if_pos hc]
    rfl
  · refine ⟨_, ?_, rfl⟩
    rw [printf, printfLoop, if_pos rfl, printfLoop, conversion, if_neg (by rcases hc with rfl | rfl <;> decide), if_pos hc]
    rfl

/-- what the four conversions print -/
structure Exact (out : List Byte → (ℕ → Word) → List Byte) (digits : List Byte) : Prop where
  d : Converts out 0x64 fun x l => Signed digits x.toInt l ∧ signedValue digits l = x.toInt
  u : Converts out 0x75 fun x l => Numeral digits 10 x.toNat l ↔ x.toNat < 2 ^ 31
  x : Converts out 0x78 fun x l => Numeral digits 16 x.toNat l
  p : Converts out 0x70 fun x l => Numeral digits 16 x.toNat l

theorem Prints.exact {out : List Byte → (ℕ → Word) → List Byte} (h : Prints out digits) (ht : Table digits) :
    Exact out digits := by
  refine ⟨fun fmt args => ?_, fun fmt args => ?_, fun fmt args => ?_, fun fmt args => ?_⟩
  · obtain ⟨l, hout, rfl⟩ := h.signed 0x64 (.inl rfl) fmt args
    exact ⟨_, hout, ht.signed _, (ht.signed _).value ht⟩
  · obtain ⟨l, hout, rfl⟩ := h.signed 0x75 (.inr rfl) fmt args
    have hneg : (args 0).toInt < 0 ↔ ¬ (args 0).toNat < 2 ^ 31 := by
      have := (args 0).isLt
      rw [BitVec.toInt_eq_toNat_cond]
      split_ifs <;> omega
    have hs := ht.signed (args 0)
    unfold Signed at hs
    refine ⟨_, hout, fun hn => ?_, fun hx => ?_⟩
    · -- from 2^31 on it starts with a minus
      by_contra hx
      rw [if_pos (hneg.2 hx)] at hs
      obtain ⟨t, hl, -⟩ := hs
      rw [hl] at hn
      exact ht.minus (mem_of_mem_take (hn.digit _ mem_cons_self))
    · have hpos : ¬ (args 0).toInt < 0 := fun h => hneg.1 h hx
      rwa [if_neg hpos, ← toNat_of_toInt hpos] at hs
  · obtain ⟨l, hout, rfl⟩ := h.unsigned 0x78 (.inl rfl) fmt args
    exact ⟨_, hout, ht.unsigned (.inr rfl) _⟩
  · obtain ⟨l, hout, rfl⟩ := h.unsigned 0x70 (.inr rfl) fmt args
    exact ⟨_, hout, ht.unsigned (.inr rfl) _⟩

end

/-- **Printed numbers read back**, in the kernel and in user programs; %u prints numbers below 2^31 only. -/
theorem numbers_read_back (str : Word → List Byte) : Exact (cprintf str) lower ∧ Exact (printf str) upper ∧
    ∀ (digits : List Byte) (xx : Word) (base : ℕ) (sign : Bool), base = 10 ∨ base = 16 →
      (digitBuf digits xx base sign).length ≤ 16 :=
  ⟨(cprintf_prints str).exact table_lower, (printf_prints str).exact table_upper,
    fun _ xx _ sign hbase => length_digitBuf xx sign hbase⟩

/-- %u of 4000 in a user program -/
theorem numbers_read_back_example : ∃ l, printf (fun _ => []) [PERCENT, 0x75] (fun _ => 4000) = l ∧ Numeral upper 10 4000 l ∧
      (digitBuf upper 4000 10 true).length ≤ 16 := by
  obtain ⟨-, hprintf, hbuf⟩ := numbers_read_back fun _ => []
  obtain ⟨l, hout, hl⟩ := hprintf.u [] fun _ => 4000
  exact ⟨l, hout.trans (append_nil l), hl.2 (by decide), hbuf upper 4000 10 true (.inl rfl)⟩

/-- **%u of 2^32 - 1 prints "-1"**, which is no unsigned numeral. -/
theorem large_unsigned_is_negative : (∀ str, cprintf str [PERCENT, 0x75] (fun _ => 0xffffffff) = [MINUS, 0x31] ∧
      printf str [PERCENT, 0x75] (fun _ => 0xffffffff) = [MINUS, 0x31]) ∧
        ∀ n, ¬ Numeral lower 10 n [MINUS, 0x31] ∧ ¬ Numeral upper 10 n [MINUS, 0x31] := by
  refine ⟨fun str => ⟨rfl, rfl⟩, fun n => ⟨fun h => ?_, fun h => ?_⟩⟩
  · exact absurd (h.digit MINUS mem_cons_self) (by decide)
  · exact absurd (h.digit MINUS mem_cons_self) (by decide)

end Xv6.Printf
