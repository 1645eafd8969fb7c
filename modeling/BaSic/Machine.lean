import Mathlib

namespace BaSic
/-- What stops a modelled computation: an array index outside its array, a
division by zero or with a quotient that does not fit, or a loop still running
when its fuel is used up. -/
inductive Fault where
  | outOfBounds (index : Nat)
  | divideByZero
  | overflow
  | timeout
  deriving DecidableEq, Repr

@[simp] theorem ok_bind {α β : Type} (a : α) (f : α → Except Fault β) :
    (Except.ok a >>= f) = f a := rfl

@[simp] theorem error_bind {α β : Type} (e : Fault) (f : α → Except Fault β) :
    (Except.error e >>= f) = .error e := rfl

theorem bind_ok {α β : Type} {x : Except Fault α} {f : α → Except Fault β} {b : β} (h : (x >>= f) = .ok b) :
    ∃ a, x = .ok a ∧ f a = .ok b := by
  cases x with
  | error e => cases h
  | ok a => exact ⟨a, rfl, h⟩

theorem ok_of_map {α β : Type} {x : Except Fault α} {f : α → β} {b : β} (h : x.map f = .ok b) :
    ∃ a, x = .ok a ∧ f a = b := by
  cases x with
  | error e => cases h
  | ok a => exact ⟨a, rfl, Except.ok.inj h⟩

/-- Wrap-around of 32-bit unsigned arithmetic. -/
def u32 (n : Nat) : Nat := n % 4294967296

/-- 32-bit unsigned subtraction of two values in range. -/
def sub32 (a b : Nat) : Nat := u32 (a + 4294967296 - b)

theorem u32_of_lt {n : Nat} (h : n < 4294967296) : u32 n = n := Nat.mod_eq_of_lt h

theorem sub32_of_le {a b : Nat} (h : b ≤ a) (ha : a < 4294967296) : sub32 a b = a - b := by
  unfold sub32 u32
  omega

theorem to_list_loop (bs : ByteArray) (n : Nat) : ∀ (i : Nat) (r : List UInt8), bs.size - i = n →
    ByteArray.toList.loop bs i r = r.reverse ++ bs.data.toList.drop i := by
  induction n with
  | zero =>
    intro i r h
    have hlen : bs.data.toList.length = bs.size := Array.length_toList
    rw [ByteArray.toList.loop, if_neg (by omega), List.drop_of_length_le (by omega), List.append_nil]
  | succ n ih =>
    intro i r h
    have hi : i < bs.size := by omega
    have hlen : i < bs.data.toList.length := by simpa using hi
    rw [ByteArray.toList.loop, if_pos hi, ih (i + 1) _ (by omega), List.drop_eq_getElem_cons hlen]
    simp [ByteArray.get!, getElem!_pos, hi]

/-- The bytes of a string from its characters, in a form that evaluates. -/
theorem utf8_of_chars (cs : List Char) : (String.ofList cs).toUTF8.toList = cs.flatMap String.utf8EncodeChar := by
  have hlist : ∀ bs : ByteArray, bs.toList = bs.data.toList := fun bs => by
    simp [ByteArray.toList, to_list_loop bs _ 0 [] rfl]
  rw [hlist]
  change (String.ofList cs).toByteArray.data.toList = _
  rw [String.toByteArray_ofList, List.utf8Encode, List.toList_data_toByteArray]

end BaSic
