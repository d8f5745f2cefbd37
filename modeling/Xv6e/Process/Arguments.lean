import Xv6e.Params

/-!
# Arguments of system calls

`fetchint`, `fetchstr`, `argint`, `argptr` and `argstr` of `syscall.c`.  Machine words are natural numbers
below `2 ^ 32`, and sums of them are taken modulo `2 ^ 32` where the code does so.  Beside its result, a
function gives the addresses of the bytes of user memory that it reads.

* `Fetch` — a result, or the return value `-1`, with the addresses read;
* `fetchint`, `argint`, `argptr`, `fetchstr`, `argstr`;
* `arguments_inside` — what is read, and what is returned, lies below the size of the process.
-/

namespace Xv6e.Process.Arguments

/-- What the functions look at of the current process: its size, the saved stack pointer, its memory. -/
structure Proc where
  sz : ℕ
  esp : ℕ
  mem : ℕ → UInt8

/-- A result with the addresses read; `none` is the return value `-1`. -/
structure Fetch (α : Type) where
  value : Option α
  reads : List ℕ

def Fetch.andThen {α β : Type} (f : Fetch α) (g : α → Fetch β) : Fetch β :=
  match f.value with
  | none => ⟨none, f.reads⟩
  | some a => ⟨(g a).value, f.reads ++ (g a).reads⟩

instance : Monad Fetch where
  pure a := ⟨some a, []⟩
  bind := Fetch.andThen

def fail {α : Type} : Fetch α := ⟨none, []⟩

def readByte (p : Proc) (addr : ℕ) : Fetch UInt8 := ⟨some (p.mem (addr % ADDRESSES)), [addr % ADDRESSES]⟩

def readInt (p : Proc) (addr : ℕ) : Fetch ℕ := do
  let b0 ← readByte p addr
  let b1 ← readByte p (addr + 1)
  let b2 ← readByte p (addr + 2)
  let b3 ← readByte p (addr + 3)
  return b0.toNat + 2 ^ 8 * b1.toNat + 2 ^ 16 * b2.toNat + 2 ^ 24 * b3.toNat

/-- `fetchint`: the value stored in `*ip`. -/
def fetchint (p : Proc) (addr : ℕ) : Fetch ℕ :=
  if p.sz ≤ addr ∨ p.sz < (addr + 4) % ADDRESSES then fail else readInt p addr

/-- The loop of `fetchstr`, with `n` bytes to go before `ep`: the length of the string. -/
def strLoop (p : Proc) (start : ℕ) : ℕ → ℕ → Fetch ℕ
  | 0, _ => fail
  | n + 1, s => do
    let b ← readByte p s
    if b = 0 then return s - start else strLoop p start n (s + 1)

/-- `fetchstr`: the pointer stored in `*pp`, and the length returned. -/
def fetchstr (p : Proc) (addr : ℕ) : Fetch (ℕ × ℕ) :=
  if p.sz ≤ addr then fail
  else do
    let len ← strLoop p addr (p.sz - addr) addr
    return (addr, len)

/-- The address of an argument, `esp + 4 + 4*n`. -/
def argAddr (p : Proc) (n : ℤ) : ℕ := ((p.esp + 4 + 4 * n) % ADDRESSES).toNat

def argint (p : Proc) (n : ℤ) : Fetch ℕ := fetchint p (argAddr p n)

/-- `argptr`: the pointer stored in `*pp`. -/
def argptr (p : Proc) (n size : ℤ) : Fetch ℕ := do
  let i ← argint p n
  if size < 0 ∨ p.sz ≤ i ∨ (p.sz : ℤ) < (i + size) % ADDRESSES then fail else return i

def argstr (p : Proc) (n : ℤ) : Fetch (ℕ × ℕ) := do
  let addr ← argint p n
  fetchstr p addr

/-! ### Results -/

variable {α β : Type} {p : Proc} {addr : ℕ}

/-- Everything read lies in the process. -/
def Fetch.Inside (f : Fetch α) (sz : ℕ) : Prop := ∀ a ∈ f.reads, a < sz

def wordAt (mem : ℕ → UInt8) (addr : ℕ) : ℕ :=
  (mem addr).toNat + 2 ^ 8 * (mem (addr + 1)).toNat + 2 ^ 16 * (mem (addr + 2)).toNat
    + 2 ^ 24 * (mem (addr + 3)).toNat

/-- The string of length `len` at `addr` lies below `sz` with its NUL. -/
def StringAt (p : Proc) (addr len : ℕ) : Prop :=
  addr + len < p.sz ∧ p.mem (addr + len) = 0 ∧ ∀ k < len, p.mem (addr + k) ≠ 0

theorem inside_fail (sz : ℕ) : (fail : Fetch α).Inside sz := fun _ h => absurd h List.not_mem_nil

theorem inside_pure (a : α) (sz : ℕ) : (pure a : Fetch α).Inside sz := fun _ h => absurd h List.not_mem_nil

theorem inside_bind {f : Fetch α} {g : α → Fetch β} {sz : ℕ} (hf : f.Inside sz)
    (hg : ∀ a, f.value = some a → (g a).Inside sz) : (f >>= g).Inside sz := by
  show (f.andThen g).Inside sz
  rw [Fetch.andThen]
  cases hv : f.value with
  | none => exact hf
  | some a => exact fun x hx => (List.mem_append.mp hx).elim (hf x) (hg a hv x)

theorem value_bind {f : Fetch α} {g : α → Fetch β} : (f >>= g).value = f.value.bind fun a => (g a).value := by
  show (f.andThen g).value = _
  rw [Fetch.andThen]
  cases f.value <;> rfl

theorem readInt_eq (h : addr + 4 ≤ ADDRESSES) :
    readInt p addr = ⟨some (wordAt p.mem addr), [addr, addr + 1, addr + 2, addr + 3]⟩ := by
  have h0 : addr % ADDRESSES = addr := Nat.mod_eq_of_lt (by omega)
  have h1 : (addr + 1) % ADDRESSES = addr + 1 := Nat.mod_eq_of_lt (by omega)
  have h2 : (addr + 2) % ADDRESSES = addr + 2 := Nat.mod_eq_of_lt (by omega)
  have h3 : (addr + 3) % ADDRESSES = addr + 3 := Nat.mod_eq_of_lt (by omega)
  simp only [readInt, readByte, bind, Fetch.andThen, pure, h0, h1, h2, h3]
  rfl

/-- **`fetchint`** succeeds only if the four bytes are below `sz`. -/
theorem fetchint_eq (hsz : p.sz < KERNBASE) (haddr : addr < ADDRESSES) :
    fetchint p addr = if addr + 4 ≤ p.sz then ⟨some (wordAt p.mem addr), [addr, addr + 1, addr + 2, addr + 3]⟩
    else fail := by
  have hlow : KERNBASE + 4 < ADDRESSES := by decide
  rw [fetchint]
  by_cases h : addr + 4 ≤ p.sz
  · have hmod : (addr + 4) % ADDRESSES = addr + 4 := Nat.mod_eq_of_lt (by omega)
    rw [if_neg (by omega), if_pos h, readInt_eq (by omega)]
  · rw [if_neg h, if_pos]
    by_cases hge : p.sz ≤ addr
    · exact Or.inl hge
    · have hmod : (addr + 4) % ADDRESSES = addr + 4 := Nat.mod_eq_of_lt (by omega)
      omega

theorem fetchint_inside (hsz : p.sz < KERNBASE) (haddr : addr < ADDRESSES) :
    (fetchint p addr).Inside p.sz := by
  rw [fetchint_eq hsz haddr]
  by_cases h : addr + 4 ≤ p.sz
  · rw [if_pos h]
    intro a ha
    simp only [List.mem_cons, List.not_mem_nil, or_false] at ha
    omega
  · rw [if_neg h]
    exact inside_fail _

theorem fetchint_some (hsz : p.sz < KERNBASE) (haddr : addr < ADDRESSES) {v : ℕ}
    (hv : (fetchint p addr).value = some v) : addr + 4 ≤ p.sz ∧ v = wordAt p.mem addr := by
  rw [fetchint_eq hsz haddr] at hv
  by_cases h : addr + 4 ≤ p.sz
  · rw [if_pos h] at hv
    exact ⟨h, (Option.some.inj hv).symm⟩
  · rw [if_neg h] at hv
    cases hv

theorem argAddr_lt (p : Proc) (n : ℤ) : argAddr p n < ADDRESSES := by
  have h := Int.emod_lt_of_pos (p.esp + 4 + 4 * n) (show (0 : ℤ) < ADDRESSES by decide)
  have h0 := Int.emod_nonneg (p.esp + 4 + 4 * n) (show (ADDRESSES : ℤ) ≠ 0 by decide)
  rw [argAddr]
  omega

section

variable (hsz : p.sz < KERNBASE)
include hsz

/-- **`argptr`** succeeds only for a block below `sz`. -/
theorem argptr_some {n size : ℤ} (hsize : size < 2 ^ 31) {i : ℕ} (hi : (argptr p n size).value = some i) :
    i = wordAt p.mem (argAddr p n) ∧ 0 ≤ size ∧ i + size ≤ p.sz := by
  rw [argptr, value_bind, Option.bind_eq_some_iff] at hi
  obtain ⟨j, hj, hi⟩ := hi
  obtain ⟨_, hj⟩ := fetchint_some hsz (argAddr_lt p n) hj
  by_cases hbad : size < 0 ∨ p.sz ≤ j ∨ (p.sz : ℤ) < (j + size) % ADDRESSES
  · rw [if_pos hbad] at hi
    cases hi
  · rw [if_neg hbad] at hi
    obtain rfl : j = i := Option.some.inj hi
    have hmod : ((j : ℤ) + size) % ADDRESSES = j + size := by
      refine Int.emod_eq_of_lt (by omega) ?_
      simp only [KERNBASE, ADDRESSES] at *
      omega
    exact ⟨hj, by omega, by omega⟩

theorem argptr_inside (n size : ℤ) : (argptr p n size).Inside p.sz := by
  refine inside_bind (fetchint_inside hsz (argAddr_lt p n)) fun i _ => ?_
  by_cases hbad : size < 0 ∨ p.sz ≤ i ∨ (p.sz : ℤ) < (i + size) % ADDRESSES
  · rw [if_pos hbad]
    exact inside_fail _
  · rw [if_neg hbad]
    exact inside_pure _ _

/-- **The loop of `fetchstr`** finds the first NUL before `ep`. -/
theorem strLoop_spec {start n s : ℕ} (hs : start ≤ s) (hn : s + n = p.sz) :
    (strLoop p start n s).Inside p.sz
      ∧ (∀ len, (strLoop p start n s).value = some len →
        s ≤ start + len ∧ start + len < p.sz ∧ p.mem (start + len) = 0
        ∧ ∀ a, s ≤ a → a < start + len → p.mem a ≠ 0)
      ∧ ((strLoop p start n s).value = none → ∀ a, s ≤ a → a < p.sz → p.mem a ≠ 0) := by
  induction n generalizing s with
  | zero =>
    refine ⟨inside_fail _, fun len h => (by cases h), fun _ a h1 h2 => ?_⟩
    omega
  | succ n ih =>
    have hmod : s % ADDRESSES = s := by
      refine Nat.mod_eq_of_lt ?_
      simp only [KERNBASE, ADDRESSES] at *
      omega
    obtain ⟨hin, hsome, hnone⟩ := ih (s := s + 1) (by omega) (by omega)
    have hread : (readByte p s).Inside p.sz := fun a ha => by
      rw [readByte, hmod, List.mem_singleton] at ha
      omega
    have hvalue : (strLoop p start (n + 1) s).value = if p.mem s = 0 then some (s - start)
        else (strLoop p start n (s + 1)).value := by
      rw [strLoop, value_bind, readByte, hmod]
      show (if p.mem s = 0 then _ else _ : Fetch ℕ).value = _
      split <;> rfl
    refine ⟨inside_bind hread fun b _ => ?_, ?_⟩
    · by_cases hb : b = 0
      · rw [if_pos hb]
        exact inside_pure _ _
      · rw [if_neg hb]
        exact hin
    · rw [hvalue]
      by_cases hb : p.mem s = 0
      · rw [if_pos hb]
        refine ⟨fun len h => ?_, fun h => (by cases h)⟩
        obtain rfl : s - start = len := Option.some.inj h
        rw [show start + (s - start) = s by omega]
        exact ⟨le_rfl, by omega, hb, fun a h1 h2 => by omega⟩
      · rw [if_neg hb]
        have hmore : ∀ {m : ℕ}, (∀ a, s + 1 ≤ a → a < m → p.mem a ≠ 0) → ∀ a, s ≤ a → a < m → p.mem a ≠ 0 :=
          fun h a h1 h2 => by
            by_cases has : a = s
            · rw [has]
              exact hb
            · exact h a (by omega) h2
        refine ⟨fun len h => ?_, fun h => hmore (hnone h)⟩
        obtain ⟨h1, h2, h3, h4⟩ := hsome len h
        exact ⟨by omega, h2, h3, hmore h4⟩

theorem fetchstr_inside (addr : ℕ) : (fetchstr p addr).Inside p.sz := by
  rw [fetchstr]
  by_cases h : p.sz ≤ addr
  · rw [if_pos h]
    exact inside_fail _
  · rw [if_neg h]
    exact inside_bind (strLoop_spec hsz le_rfl (by omega)).1 fun _ _ => inside_pure _ _

/-- **`fetchstr`** fails only if there is no NUL before `sz`. -/
theorem fetchstr_none (h : (fetchstr p addr).value = none) {a : ℕ} (h1 : addr ≤ a) (h2 : a < p.sz) :
    p.mem a ≠ 0 := by
  rw [fetchstr, if_neg (by omega), value_bind] at h
  cases hv : (strLoop p addr (p.sz - addr) addr).value with
  | none => exact (strLoop_spec hsz le_rfl (by omega)).2.2 hv a h1 h2
  | some len =>
    rw [hv] at h
    cases h

theorem fetchstr_some {q len : ℕ} (h : (fetchstr p addr).value = some (q, len)) :
    q = addr ∧ StringAt p addr len := by
  rw [fetchstr] at h
  by_cases hge : p.sz ≤ addr
  · rw [if_pos hge] at h
    cases h
  · rw [if_neg hge, value_bind, Option.bind_eq_some_iff] at h
    obtain ⟨k, hk, h⟩ := h
    obtain ⟨rfl, rfl⟩ := Prod.mk.inj (Option.some.inj h)
    obtain ⟨_, h2, h3, h4⟩ := (strLoop_spec hsz le_rfl (by omega)).2.1 k hk
    exact ⟨rfl, h2, h3, fun j hj => h4 _ (by omega) (by omega)⟩

end

theorem StringAt.unique {len len' : ℕ} (h : StringAt p addr len) (h' : StringAt p addr len') :
    len = len' := by
  rcases lt_trichotomy len len' with hlt | heq | hgt
  · exact absurd h.2.1 (h'.2.2 len hlt)
  · exact heq
  · exact absurd h'.2.1 (h.2.2 len' hgt)

theorem fetchstr_iff (hsz : p.sz < KERNBASE) (q len : ℕ) :
    (fetchstr p addr).value = some (q, len) ↔ q = addr ∧ StringAt p addr len := by
  refine ⟨fetchstr_some hsz, ?_⟩
  rintro ⟨rfl, hstring⟩
  cases hv : (fetchstr p q).value with
  | none => exact absurd hstring.2.1 (fetchstr_none hsz hv (Nat.le_add_right ..) hstring.1)
  | some r =>
    obtain ⟨q', len'⟩ := r
    obtain ⟨rfl, hstring'⟩ := fetchstr_some hsz hv
    rw [hstring.unique hstring']

/-- **Arguments stay inside the process.**  Whatever the stack pointer, the index of the argument and the
contents of memory are, every byte that is read lies below `sz`.  An integer that is returned is that of four
bytes below `sz`, a block ends below it, and a string has its NUL below it; `fetchstr` returns the index of
the first NUL, and fails only if there is none. -/
theorem arguments_inside (p : Proc) (hsz : p.sz < KERNBASE) :
    (∀ addr < ADDRESSES, (fetchint p addr).Inside p.sz
      ∧ ∀ v, (fetchint p addr).value = some v → addr + 4 ≤ p.sz ∧ v = wordAt p.mem addr)
    ∧ (∀ n, (argint p n).Inside p.sz
      ∧ ∀ v, (argint p n).value = some v → argAddr p n + 4 ≤ p.sz ∧ v = wordAt p.mem (argAddr p n))
    ∧ (∀ n size, size < 2 ^ 31 → (argptr p n size).Inside p.sz
      ∧ ∀ i, (argptr p n size).value = some i → i = wordAt p.mem (argAddr p n) ∧ 0 ≤ size ∧ i + size ≤ p.sz)
    ∧ (∀ addr, (fetchstr p addr).Inside p.sz
      ∧ (∀ q len, (fetchstr p addr).value = some (q, len) ↔ q = addr ∧ StringAt p addr len)
      ∧ ((fetchstr p addr).value = none ↔ ∀ a, addr ≤ a → a < p.sz → p.mem a ≠ 0))
    ∧ ∀ n, (argstr p n).Inside p.sz
      ∧ ∀ q len, (argstr p n).value = some (q, len) → q = wordAt p.mem (argAddr p n) ∧ StringAt p q len := by
  refine ⟨fun addr haddr => ⟨fetchint_inside hsz haddr, fun v => fetchint_some hsz haddr⟩,
    fun n => ⟨fetchint_inside hsz (argAddr_lt p n), fun v => fetchint_some hsz (argAddr_lt p n)⟩,
    fun n size hsize => ⟨argptr_inside hsz n size, fun i => argptr_some hsz hsize⟩,
    fun addr => ⟨fetchstr_inside hsz addr, fetchstr_iff hsz, fun h a => fetchstr_none hsz h, fun h => ?_⟩,
    fun n => ⟨inside_bind (fetchint_inside hsz (argAddr_lt p n)) fun addr _ => fetchstr_inside hsz addr,
      fun q len h => ?_⟩⟩
  · cases hv : (fetchstr p addr).value with
    | none => rfl
    | some r =>
      obtain ⟨_, hend, hnul, _⟩ := fetchstr_some hsz hv
      exact absurd hnul (h _ (Nat.le_add_right ..) hend)
  · rw [argstr, value_bind, Option.bind_eq_some_iff] at h
    obtain ⟨addr, haddr, h⟩ := h
    obtain ⟨_, rfl⟩ := fetchint_some hsz (argAddr_lt p n) haddr
    obtain ⟨rfl, hstring⟩ := fetchstr_some hsz h
    exact ⟨rfl, hstring⟩

/-- A process whose argument 0 points to the string `ab` at its end. -/
def smallProc : Proc where
  sz := 4096
  esp := 4080
  mem := fun a => if a = 4084 then 253 else if a = 4085 then 15 else if a = 4093 then 97
    else if a = 4094 then 98 else 0

/-- The string at the end of the process is found. -/
theorem arguments_inside_small : smallProc.sz < KERNBASE ∧ (argstr smallProc 0).value = some (4093, 2)
    ∧ StringAt smallProc 4093 2 ∧ (argstr smallProc 0).Inside 4096 := by
  have hvalue : (argstr smallProc 0).value = some (4093, 2) := by decide +kernel
  have h := (arguments_inside smallProc (by decide)).2.2.2.2 0
  exact ⟨by decide, hvalue, (h.2 4093 2 hvalue).2, h.1⟩

end Xv6e.Process.Arguments
