import Mathlib.Algebra.BigOperators.Fin
import Mathlib.Data.Nat.ModEq
import Mathlib.Tactic.Ring
import Disassembly.Text.Sdbm

/-!
# The hash as a polynomial

The hash of a text is the polynomial with the bytes of the text as coefficients, the last byte constant, at 65599
and modulo `2 ^ 32` (`toNat_ofBytes`). A byte that follows can be told from the hash, and so can the hash before it,
as 65599 is odd (`step_right_inj`, `step_left_inj`): what two texts have in common at their ends never makes them
collide (`foldl_step_inj`). Texts that differ in one byte or in the order of two neighbours therefore have different
hashes (`hash_polynomial`).
-/

namespace Disassembly.Text.Sdbm

variable {b c : UInt8} {h h' : UInt32} {p q before after : List UInt8}

/-! ### One byte -/

/-- The shifts multiply by 65599. -/
theorem toNat_step (h : UInt32) (b : UInt8) :
    (step h b).toNat = (h.toNat * 65599 + b.toNat) % UInt32.size := by
  have hh := h.toNat_lt
  have hb := b.toNat_lt
  have h6 : (h <<< 6).toNat = h.toNat * 64 % 2 ^ 32 := by
    rw [UInt32.toNat_shiftLeft, Nat.shiftLeft_eq]
    rfl
  have h16 : (h <<< 16).toNat = h.toNat * 65536 % 2 ^ 32 := by
    rw [UInt32.toNat_shiftLeft, Nat.shiftLeft_eq]
    rfl
  rw [step, UInt32.toNat_sub, UInt32.toNat_add, UInt32.toNat_add, h6, h16, UInt8.toNat_toUInt32, UInt32.size]
  omega

/-- The hash before a byte can be told from the hash after it. -/
theorem step_left_inj (heq : step h b = step h' b) : h = h' := by
  have hmod : h.toNat * 65599 + b.toNat ≡ h'.toNat * 65599 + b.toNat [MOD UInt32.size] := by
    rw [Nat.ModEq, ← toNat_step, ← toNat_step, heq]
  have hodd : Nat.gcd UInt32.size 65599 = 1 := by decide
  have hsame := Nat.ModEq.cancel_right_of_coprime hodd (Nat.ModEq.add_right_cancel' _ hmod)
  exact UInt32.toNat_inj.mp (hsame.eq_of_lt_of_lt h.toNat_lt h'.toNat_lt)

/-- A byte can be told from the hashes before and after it. -/
theorem step_right_inj (heq : step h b = step h c) : b = c := by
  have hb := b.toNat_lt
  have hc := c.toNat_lt
  have heq := congrArg UInt32.toNat heq
  rw [toNat_step, toNat_step, UInt32.size] at heq
  refine UInt8.toNat_inj.mp ?_
  omega

/-! ### Many bytes -/

/-- The bytes as the coefficients of a polynomial, the last one constant, at 65599. -/
def polynomial (bytes : List UInt8) : Nat :=
  ∑ i : Fin bytes.length, bytes[i].toNat * 65599 ^ (bytes.length - 1 - i)

theorem polynomial_cons (b : UInt8) (p : List UInt8) :
    polynomial (b :: p) = b.toNat * 65599 ^ p.length + polynomial p := by
  refine (Fin.sum_univ_succ _).trans (congrArg _ (Finset.sum_congr rfl fun i _ => ?_))
  have hexponent : p.length - (i.val + 1) = p.length - 1 - i.val := by omega
  simp [hexponent]

theorem toNat_foldl_step (h : UInt32) (p : List UInt8) :
    (p.foldl step h).toNat = (h.toNat * 65599 ^ p.length + polynomial p) % UInt32.size := by
  induction p generalizing h with
  | nil => simp [polynomial, Nat.mod_eq_of_lt h.toNat_lt]
  | cons b p ih =>
    calc ((b :: p).foldl step h).toNat
        = ((h.toNat * 65599 + b.toNat) % UInt32.size * 65599 ^ p.length + polynomial p) % UInt32.size := by
          rw [List.foldl_cons, ih, toNat_step]
      _ = ((h.toNat * 65599 + b.toNat) * 65599 ^ p.length + polynomial p) % UInt32.size := by
          rw [Nat.add_mod, Nat.mod_mul_mod, ← Nat.add_mod]
      _ = (h.toNat * 65599 ^ (b :: p).length + polynomial (b :: p)) % UInt32.size := by
          rw [polynomial_cons, List.length_cons]
          ring_nf

/-- Two bytes by themselves count for less than `2 ^ 32`, so that their order can be told from the hash after them. -/
theorem eq_of_step_comm (heq : step (step h b) c = step (step h c) b) : b = c := by
  have hlt (b c : UInt8) : b.toNat * 65599 + c.toNat < UInt32.size := by
    have := b.toNat_lt
    have := c.toNat_lt
    rw [UInt32.size]
    omega
  have htwo (b c : UInt8) : (step (step h b) c).toNat =
      (h.toNat * 65599 ^ 2 + (b.toNat * 65599 + c.toNat)) % UInt32.size := by
    simpa [polynomial_cons, polynomial] using toNat_foldl_step h [b, c]
  have heq := congrArg UInt32.toNat heq
  rw [htwo, htwo] at heq
  have hsame := (Nat.ModEq.add_left_cancel' _ heq).eq_of_lt_of_lt (hlt b c) (hlt c b)
  refine UInt8.toNat_inj.mp ?_
  omega

theorem toNat_ofBytes (p : List UInt8) : (ofBytes p).toNat = polynomial p % UInt32.size := by
  rw [ofBytes, toNat_foldl_step]
  simp

theorem ofBytes_append (p q : List UInt8) : ofBytes (p ++ q) = q.foldl step (ofBytes p) := List.foldl_append

/-- What comes before some bytes counts by the power of 65599 for their number. -/
theorem toNat_ofBytes_append (p q : List UInt8) : (ofBytes (p ++ q)).toNat =
    ((ofBytes p).toNat * 65599 ^ q.length + (ofBytes q).toNat) % UInt32.size := by
  rw [ofBytes_append, toNat_foldl_step, toNat_ofBytes q, Nat.add_mod_mod]

/-- The hash before some bytes can be told from the hash after them. -/
theorem foldl_step_inj (heq : p.foldl step h = p.foldl step h') : h = h' := by
  induction p generalizing h h' with
  | nil => exact heq
  | cons b p ih =>
    rw [List.foldl_cons, List.foldl_cons] at heq
    exact step_left_inj (ih heq)

theorem ofBytes_ne_of_byte (hne : b ≠ c) : ofBytes (before ++ b :: after) ≠ ofBytes (before ++ c :: after) := by
  rw [ofBytes_append, ofBytes_append, List.foldl_cons, List.foldl_cons]
  exact fun heq => hne (step_right_inj (foldl_step_inj heq))

theorem ofBytes_ne_of_exchange (hne : b ≠ c) :
    ofBytes (before ++ b :: c :: after) ≠ ofBytes (before ++ c :: b :: after) := by
  rw [ofBytes_append, ofBytes_append]
  simp only [List.foldl_cons]
  exact fun heq => hne (eq_of_step_comm (foldl_step_inj heq))

/-! ### Texts -/

@[simp] theorem bytes_append (text more : String) : bytes (text ++ more) = bytes text ++ bytes more := by
  simp [bytes]

/-- Sequences of the same length that differ at one place only are the same before it and after it. -/
theorem exists_of_unique_place (hlength : p.length = q.length) (hplace : ∃! i : Nat, p[i]? ≠ q[i]?) :
    ∃ before b c after, b ≠ c ∧ p = before ++ b :: after ∧ q = before ++ c :: after := by
  obtain ⟨i, hi, hunique⟩ := hplace
  have hsame (j : Nat) (hj : j ≠ i) : p[j]? = q[j]? := Decidable.byContradiction fun hne => hj (hunique j hne)
  have hp : i < p.length := by
    refine Nat.lt_of_not_le fun hle => hi ?_
    rw [List.getElem?_eq_none hle, List.getElem?_eq_none (hlength ▸ hle)]
  have hq : i < q.length := hlength ▸ hp
  rw [List.getElem?_eq_getElem hp, List.getElem?_eq_getElem hq, ne_eq, Option.some.injEq] at hi
  have hbefore : p.take i = q.take i := by
    refine List.ext_getElem? fun j => ?_
    rw [List.getElem?_take, List.getElem?_take]
    split
    · exact hsame j (by omega)
    · rfl
  have hafter : p.drop (i + 1) = q.drop (i + 1) := by
    refine List.ext_getElem? fun j => ?_
    rw [List.getElem?_drop, List.getElem?_drop]
    exact hsame _ (by omega)
  refine ⟨p.take i, p[i], q[i], p.drop (i + 1), hi, ?_, ?_⟩
  · rw [List.getElem_cons_drop, List.take_append_drop]
  · rw [hbefore, hafter, List.getElem_cons_drop, List.take_append_drop]

/-- The hash of a text is the polynomial of its bytes modulo `2 ^ 32`, so that the hash of two texts one after the other
comes from their hashes. Texts with as many bytes never collide if they differ in one byte only, nor if they differ in
the order of two neighbours that are not the same. -/
theorem hash_polynomial (text : String) :
    (hash text).toNat = polynomial (bytes text) % UInt32.size ∧
      (∀ more : String, (hash (text ++ more)).toNat =
        ((hash text).toNat * 65599 ^ (bytes more).length + (hash more).toNat) % UInt32.size) ∧
      (∀ other : String, (bytes other).length = (bytes text).length →
        (∃! i : Nat, (bytes other)[i]? ≠ (bytes text)[i]?) → hash other ≠ hash text) ∧
      ∀ (other : String) (before after : List UInt8) (b c : UInt8), b ≠ c →
        bytes text = before ++ b :: c :: after → bytes other = before ++ c :: b :: after →
          hash other ≠ hash text := by
  refine ⟨toNat_ofBytes _, fun more => ?_, fun other hlength hplace => ?_,
    fun other before after b c hne htext hother => ?_⟩
  · rw [hash, bytes_append]
    exact toNat_ofBytes_append _ _
  · obtain ⟨before, b, c, after, hne, hother, htext⟩ := exists_of_unique_place hlength hplace
    rw [hash, hash, hother, htext]
    exact ofBytes_ne_of_byte hne
  · rw [hash, hash, hother, htext]
    exact ofBytes_ne_of_exchange hne.symm

/-- The first letter takes two bytes. In `è.ax` the second of them is another than in `é.ax`, and in `é.xa` the last two
bytes have changed places. -/
theorem hash_polynomial_neighbours :
    (hash "é.ax").toNat = polynomial [0xc3, 0xa9, 0x2e, 0x61, 0x78] % UInt32.size ∧
      (hash ("é" ++ ".ax")).toNat =
        ((hash "é").toNat * 65599 ^ 3 + (hash ".ax").toNat) % UInt32.size ∧
      hash "è.ax" ≠ hash "é.ax" ∧ hash "é.xa" ≠ hash "é.ax" := by
  have htext : bytes "é.ax" = [0xc3, 0xa9, 0x2e, 0x61, 0x78] := by decide +kernel
  have hbyte : bytes "è.ax" = [0xc3, 0xa8, 0x2e, 0x61, 0x78] := by decide +kernel
  have hexchange : bytes "é.xa" = [0xc3, 0xa9, 0x2e, 0x78, 0x61] := by decide +kernel
  have hmore : (bytes ".ax").length = 3 := by decide +kernel
  obtain ⟨hpolynomial, -, hone, hneighbours⟩ := hash_polynomial "é.ax"
  refine ⟨htext ▸ hpolynomial, hmore ▸ (hash_polynomial "é").2.1 ".ax", hone _ ?_ ?_, ?_⟩
  · rw [htext, hbyte]
    rfl
  · rw [htext, hbyte]
    refine ⟨1, by decide, fun i hi => ?_⟩
    match i with
    | 0 => exact absurd rfl hi
    | 1 => rfl
    | i + 2 => exact absurd rfl hi
  · exact hneighbours _ [0xc3, 0xa9, 0x2e] [] 0x61 0x78 (by decide) htext hexchange

end Disassembly.Text.Sdbm
