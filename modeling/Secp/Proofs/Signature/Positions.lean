import Secp.Proofs.Outcome
import Secp.Signature.Der

/-!
# Reading a signature by position

Here the byte string is kept whole, and each reader is given the place where it begins and gives
the place behind what it has read. A byte looked up outside the string, and a place beyond its end,
stop the reader in a way of their own, apart from every refusal. No reader ever stops so: each
agrees with the reader that takes the string apart, and keeps its place inside the string.
-/

namespace Secp.Signature

/-- Why reading by position gives no result. -/
inductive Halt where
  | refused (reason : Error)
  | outOfBounds
  deriving DecidableEq, Repr

namespace Positions

variable {α β : Type}

/-- The byte with an index, which must be inside the string. -/
def byteOf (b : Bytes) (index : Nat) : Except Halt UInt8 :=
  match b[index]? with
  | some byte => .ok byte
  | none => .error .outOfBounds

/-- How many bytes stand at a place and behind it; the place must not be beyond the end. -/
def countFrom (b : Bytes) (place : Nat) : Except Halt Nat :=
  if place ≤ b.length then .ok (b.length - place) else .error .outOfBounds

/-- The bytes between two places, if they are in order and inside the string. -/
def between? (b : Bytes) (start stop : Nat) : Option Bytes :=
  if start ≤ stop ∧ stop ≤ b.length then some ((b.take stop).drop start) else none

/-- The byte at a place. -/
def readByte (b : Bytes) (place : Nat) : Except Halt (UInt8 × Nat) :=
  match b[place]? with
  | some byte => .ok (byte, place + 1)
  | none => .error (.refused (.malformedDer .endOfInput))

/-- A length in one byte. -/
def readLength (b : Bytes) (place : Nat) : Except Halt (Nat × Nat) := do
  let (n, place) ← readByte b place
  if n &&& 0x80 ≠ 0 then .error (.refused (.malformedDer .longLength)) else .ok (n.toNat, place)

/-- Refuse a negative or padded body. The second byte is looked up only where there is one and the
first is zero. -/
def checkBody (body : Bytes) : Except Halt Unit := do
  let top ← byteOf body 0
  if top &&& 0x80 ≠ 0 then .error (.refused (.malformedDer .negativeInteger))
  else if 1 < body.length ∧ top = 0 then
    let next ← byteOf body 1
    if next &&& 0x80 = 0 then .error (.refused (.malformedDer .paddedInteger)) else .ok ()
  else .ok ()

/-- A tagged integer. -/
def readInteger (b : Bytes) (place : Nat) : Except Halt (Nat × Nat) := do
  let (tag, place) ← readByte b place
  if tag ≠ integerTag then .error (.refused (.malformedDer .integerTag))
  else
    let (length, place) ← readLength b place
    if length = 0 then .error (.refused (.malformedDer .emptyInteger))
    else
      match between? b place (place + length) with
      | none => .error (.refused (.malformedDer .integerOverrun))
      | some body =>
        checkBody body
        .ok (Bytes.toNat body, place + length)

/-- Read a signature in distinguished encoding. -/
def ofDer (b : Bytes) : Except Halt Signature := do
  let (tag, place) ← readByte b 0
  if tag ≠ sequenceTag then .error (.refused (.malformedDer .sequenceTag))
  else
    let (length, place) ← readLength b place
    let count ← countFrom b place
    if length ≠ count then .error (.refused (.malformedDer .sequenceLength))
    else
      let (r, place) ← readInteger b place
      let (s, place) ← readInteger b place
      if place ≠ b.length then .error (.refused (.malformedDer .trailingBytes))
      else (ofInts r s).mapError .refused

/-- The same value with the bytes that are left and with the place where they begin, or the same
refusal. -/
inductive Agrees (b : Bytes) : Except Error (α × Bytes) → Except Halt (α × Nat) → Prop
  | refused (reason : Error) : Agrees b (.error reason) (.error (.refused reason))
  | read (a : α) {place : Nat} (inside : place ≤ b.length) :
    Agrees b (.ok (a, b.drop place)) (.ok (a, place))

/-- Two sequences agree when their first parts do, and their second parts at every place inside the
string. -/
theorem Agrees.bind {b : Bytes} {x : Except Error (α × Bytes)} {y : Except Halt (α × Nat)}
    {f : α × Bytes → Except Error (β × Bytes)} {g : α × Nat → Except Halt (β × Nat)}
    (h : Agrees b x y) (hrest : ∀ a place, place ≤ b.length → Agrees b (f (a, b.drop place))
      (g (a, place))) : Agrees b (x >>= f) (y >>= g) := by
  cases h with
  | refused reason => exact .refused reason
  | read a inside => exact hrest a _ inside

/-- Two sequences that end with a value agree when their first parts do, and their second parts at
every place inside the string. -/
theorem Agrees.bind_eq {b : Bytes} {x : Except Error (α × Bytes)} {y : Except Halt (α × Nat)}
    {f : α × Bytes → Except Error β} {g : α × Nat → Except Halt β} (h : Agrees b x y)
    (hrest : ∀ a place, place ≤ b.length →
      g (a, place) = (f (a, b.drop place)).mapError .refused) :
    y >>= g = (x >>= f).mapError .refused := by
  cases h with
  | refused reason => rfl
  | read a inside => exact hrest a _ inside

/-- The readers of a byte agree, wherever they begin. -/
theorem agrees_readByte (b : Bytes) (place : Nat) :
    Agrees b (Signature.readByte (b.drop place)) (readByte b place) := by
  unfold readByte
  cases hbyte : b[place]? with
  | none =>
    rw [List.drop_of_length_le (List.getElem?_eq_none_iff.mp hbyte)]
    exact .refused _
  | some byte =>
    obtain ⟨hlt, rfl⟩ := List.getElem?_eq_some_iff.mp hbyte
    rw [List.drop_eq_getElem_cons hlt]
    exact .read _ hlt

/-- The readers of a length agree, wherever they begin. -/
theorem agrees_readLength (b : Bytes) (place : Nat) :
    Agrees b (Signature.readLength (b.drop place)) (readLength b place) := by
  refine (agrees_readByte b place).bind fun n place inside ↦ ?_
  dsimp only
  split
  · exact .refused _
  · exact .read _ inside

/-- The bytes looked up in a body are there, as the body is not empty. -/
theorem checkBody_eq {body : Bytes} (hbody : body ≠ []) :
    checkBody body = (Signature.checkBody body).mapError .refused := by
  obtain ⟨top, rest, rfl⟩ := List.exists_cons_of_ne_nil hbody
  rw [Signature.checkBody]
  change (if _ then _ else _) = _
  by_cases hnegative : top &&& 0x80 ≠ 0
  · rw [if_pos hnegative, if_pos hnegative]
    rfl
  · rw [if_neg hnegative, if_neg hnegative]
    cases rest with
    | nil =>
      rw [if_neg (by simp), if_neg (by simp)]
      rfl
    | cons next rest =>
      by_cases htop : top = 0
      · rw [if_pos ⟨by simp, htop⟩]
        change (if _ then _ else _) = _
        by_cases hnext : next &&& 0x80 = 0
        · rw [if_pos hnext, if_pos ⟨htop, by simpa using hnext⟩]
          rfl
        · rw [if_neg hnext, if_neg (fun h ↦ hnext (by simpa using h.2))]
          rfl
      · rw [if_neg (fun h ↦ htop h.2), if_neg (fun h ↦ htop h.1)]
        rfl

/-- The readers of an integer agree, wherever they begin. -/
theorem agrees_readInteger (b : Bytes) (place : Nat) :
    Agrees b (Signature.readInteger (b.drop place)) (readInteger b place) := by
  refine (agrees_readByte b place).bind fun tag place _ ↦ ?_
  dsimp only
  split
  · exact .refused _
  · refine (agrees_readLength b place).bind fun length place inside ↦ ?_
    dsimp only
    split
    · exact .refused _
    · next hlength =>
      unfold between?
      rw [List.length_drop]
      by_cases hroom : place + length ≤ b.length
      · have hwindow : (b.take (place + length)).drop place = (b.drop place).take length := by
          rw [List.drop_take, Nat.add_sub_cancel_left]
        have hbody : (b.drop place).take length ≠ [] := by
          rw [← List.length_pos_iff, List.length_take, List.length_drop]
          omega
        rw [if_neg (by omega), if_pos ⟨Nat.le_add_right _ _, hroom⟩, hwindow, List.drop_drop]
        dsimp only
        rw [checkBody_eq hbody]
        cases Signature.checkBody ((b.drop place).take length) with
        | error reason => exact .refused reason
        | ok u => exact .read _ hroom
      · rw [if_pos (by omega), if_neg (fun h ↦ hroom h.2)]
        exact .refused _

/-- Reading by position gives what taking the string apart gives, and so never leaves the
string. -/
theorem ofDer_eq (b : Bytes) : ofDer b = (Signature.ofDer b).mapError .refused := by
  refine (agrees_readByte b 0).bind_eq fun tag place _ ↦ ?_
  dsimp only
  split
  · rfl
  · refine (agrees_readLength b place).bind_eq fun length place inside ↦ ?_
    have hcount : countFrom b place = .ok (b.drop place).length := by
      rw [countFrom, if_pos inside, List.length_drop]
    dsimp only
    rw [hcount]
    change (if _ then _ else _) = _
    split
    · rfl
    · refine (agrees_readInteger b place).bind_eq fun r place _ ↦ ?_
      refine (agrees_readInteger b place).bind_eq fun s place inside ↦ ?_
      dsimp only
      by_cases hplace : place = b.length
      · rw [if_neg (by omega), if_neg (by simp [hplace])]
      · have hrest : b.drop place ≠ [] := by
          rw [ne_eq, List.drop_eq_nil_iff]
          omega
        rw [if_pos hplace, if_pos hrest]
        rfl

end Positions

end Secp.Signature
