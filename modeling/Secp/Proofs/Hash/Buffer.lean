import Mathlib.Order.Bounds.Basic
import Secp.Proofs.Bytes
import Secp.Proofs.Hash.Streaming
import Secp.Proofs.Limbs.Checked

/-!
# Digests by way of a buffer of one block

Here a digest is taken the way a machine takes it. The bytes that wait are the front of a buffer of
one block, with a count of those in use. New data fill the buffer up first; once it is full it is
compressed, then whole blocks of the data are, where they stand, and the rest is copied to the front
of the buffer. At the end the message is closed in a second buffer of two blocks. Every slice and
every copy is checked to be inside its buffer and of the length that it is copied to, and the counts
of bytes and of bits are checked to fit 64 bits.

The only fault is a message that is too long. However a shorter one is cut, it has the digest of the
whole, which is the compression of its blocks behind the least padding.
-/

namespace Secp.Sha256

open Limbs (Fault)
open Limbs.Checked (guarded guarded_of guarded_of_not minus)

-- Powers of numbers are core's, whichever others are in scope.
attribute [local instance(2000)] instPowNat

/-- The whole blocks of a byte string, each found by its place. -/
def blocks (data : Bytes) : List Bytes :=
  (List.range (data.length / 64)).map fun place ↦ (data.drop (64 * place)).take 64

/-- The bytes from a place up to another. -/
def slice (b : Bytes) (start stop : Nat) : Except Fault Bytes :=
  guarded (start ≤ stop ∧ stop ≤ b.length) .outOfBounds ((b.take stop).drop start)

/-- Copy bytes over those from a place up to another. -/
def copyInto (b : Bytes) (start stop : Nat) (source : Bytes) : Except Fault Bytes := do
  let target ← slice b start stop
  guarded (source.length = target.length) .lengthChanged (b.take start ++ source ++ b.drop stop)

/-- A digest under way, in a buffer of one block. -/
structure Buffered where
  chain : Chain
  buffer : Bytes
  /-- Bytes of the buffer that are in use. -/
  used : Nat
  /-- Bytes taken in so far. -/
  total : Nat
  deriving DecidableEq, Repr

namespace Buffered

/-- A digest that has taken in nothing. -/
def start : Buffered := ⟨Chain.initial, List.replicate 64 0, 0, 0⟩

/-- Compress the whole blocks of the data, and copy what is left to the front of the buffer. -/
def drain (d : Buffered) (data : Bytes) : Except Fault Buffered := do
  let rest := data.drop (64 * (data.length / 64))
  let buffer ← copyInto d.buffer 0 rest.length rest
  let chain := (blocks data).foldl compress d.chain
  .ok { d with chain := chain, buffer := buffer, used := rest.length }

/-- Copy behind the bytes in use as many of the data as there is room for; the others are left. -/
def fill (d : Buffered) (data : Bytes) : Except Fault (Buffered × Bytes) := do
  let room ← minus 64 d.used
  let count := min room data.length
  let piece ← slice data 0 count
  let buffer ← copyInto d.buffer d.used (d.used + count) piece
  let rest ← slice data count data.length
  .ok ({ d with buffer := buffer, used := d.used + count }, rest)

/-- Take in more data. -/
def update (d : Buffered) (data : Bytes) : Except Fault Buffered := do
  let total ← guarded (d.total + data.length < 2 ^ 64) .overflow (d.total + data.length)
  let d := { d with total := total }
  if d.used = 0 then drain d data
  else do
    let (d, rest) ← fill d data
    if d.used < 64 then .ok d
    else drain { d with chain := compress d.chain d.buffer, used := 0 } rest

/-- What waits, a one bit, zeros and the message's length in bits, in a buffer of two blocks, of
which one is used where it has room for the length. -/
def close (d : Buffered) (bits : Nat) : Except Fault Bytes := do
  let waiting ← slice d.buffer 0 d.used
  let tail ← copyInto (List.replicate 128 0) 0 d.used waiting
  let tail ← copyInto tail d.used (d.used + 1) [0x80]
  let length := if d.used + 9 ≤ 64 then 64 else 128
  let tail ← copyInto tail (length - 8) length (Bytes.bigEndian 8 bits)
  slice tail 0 length

/-- Close the message and give the digest. -/
def finish (d : Buffered) : Except Fault Bytes := do
  let bits ← guarded (d.total * 8 < 2 ^ 64) .overflow (d.total * 8)
  let closing ← close d bits
  .ok ((blocks closing).foldl compress d.chain).toBytes

/-- The digest of a message that is taken in piece by piece. -/
def digest (pieces : List Bytes) : Except Fault Bytes := do
  let d ← pieces.foldlM update start
  d.finish

end Buffered

/-- Data shorter than a block have no whole block. -/
theorem blocks_of_short {data : Bytes} (h : data.length < 64) : blocks data = [] := by
  rw [blocks, Nat.div_eq_of_lt h]
  rfl

/-- The first whole block stands before those of the other data. -/
theorem blocks_of_long {data : Bytes} (h : 64 ≤ data.length) :
    blocks data = data.take 64 :: blocks (data.drop 64) := by
  have hcount : data.length / 64 = (data.drop 64).length / 64 + 1 := by
    rw [List.length_drop]
    omega
  rw [blocks, blocks, hcount, List.range_succ_eq_map, List.map_cons, List.map_map]
  congr 1
  apply List.map_congr_left
  intro place _
  rw [Function.comp_apply, List.drop_drop, Nat.mul_succ, Nat.add_comm]

/-- Compressing as long as there is a block compresses the whole blocks and leaves the rest. -/
theorem compressAll_eq (s : Chain) (data : Bytes) :
    compressAll s data =
      ((blocks data).foldl compress s, data.drop (64 * (data.length / 64))) := by
  fun_induction compressAll s data with
  | case1 s data hblock ih =>
    have hrest : 64 + 64 * ((data.length - 64) / 64) = 64 * (data.length / 64) := by omega
    rw [ih, blocks_of_long hblock, List.foldl_cons, List.drop_drop, List.length_drop, hrest]
  | case2 s data hrest =>
    have hshort := Nat.lt_of_not_le hrest
    rw [blocks_of_short hshort, Nat.div_eq_of_lt hshort]
    rfl

/-- Data that do not make a block are left. -/
theorem compressAll_of_short (s : Chain) {data : Bytes} (h : data.length < 64) :
    compressAll s data = (s, data) := by
  rw [compressAll, dif_neg (Nat.not_le_of_lt h)]

/-- A block is compressed before what follows it. -/
theorem compressAll_block_append (s : Chain) {block : Bytes} (h : block.length = 64)
    (rest : Bytes) : compressAll s (block ++ rest) = compressAll (compress s block) rest := by
  rw [compressAll, dif_pos (by rw [List.length_append]; omega), List.take_left' h,
    List.drop_left' h]

/-- The digest is the compression of the blocks of the padded message. -/
theorem digest_eq_blocks (data : Bytes) :
    digest data = ((blocks (pad data)).foldl compress Chain.initial).toBytes := by
  rw [digest_eq, compressAll_eq]

/-- Taking in the pieces of a message in turn is taking in the whole. -/
theorem foldl_update_start (pieces : List Bytes) :
    pieces.foldl update start = start.update pieces.flatten := by
  have hstart : start.update [] = start := by
    rw [update, compressAll_of_short _ (by decide)]
    rfl
  rw [← List.nil_append pieces.flatten, ← foldl_update, hstart]

/-- A slice inside its bytes is given. -/
theorem slice_eq {b : Bytes} {start stop : Nat} (hle : start ≤ stop) (hstop : stop ≤ b.length) :
    slice b start stop = .ok ((b.take stop).drop start) := guarded_of ⟨hle, hstop⟩ _ _

/-- A copy inside its buffer replaces as many bytes. -/
theorem copyInto_eq {b source : Bytes} {start stop : Nat} (hstop : stop ≤ b.length)
    (hsource : start + source.length = stop) :
    copyInto b start stop source = .ok (b.take start ++ source ++ b.drop stop) := by
  have hlength : source.length = ((b.take stop).drop start).length := by
    rw [List.length_drop, List.length_take]
    omega
  rw [copyInto, slice_eq (by omega) hstop, ok_bind, guarded_of hlength]

/-- A copy keeps the length of its buffer. -/
theorem length_of_copyInto {b source target : Bytes} {start stop : Nat}
    (h : copyInto b start stop source = .ok target) : target.length = b.length := by
  unfold copyInto slice guarded at h
  split at h
  · next hplace =>
    rw [ok_bind] at h
    split at h
    · next hsource =>
      obtain rfl := Except.ok.inj h
      simp only [List.length_drop, List.length_take, List.length_append] at hsource ⊢
      omega
    · exact nomatch h
  · exact nomatch h

/-- A copy behind what stands before zeros takes up some of the zeros. -/
theorem copyInto_zeros {front source : Bytes} {count start stop : Nat}
    (hstart : front.length = start) (hstop : start + source.length = stop)
    (hcount : source.length ≤ count) :
    copyInto (front ++ List.replicate count 0) start stop source =
      .ok (front ++ source ++ List.replicate (count - source.length) 0) := by
  have hlength : stop ≤ (front ++ List.replicate count (0 : UInt8)).length := by
    rw [List.length_append, List.length_replicate]
    omega
  rw [copyInto_eq hlength hstop, List.take_left' hstart, ← hstop, ← hstart, List.drop_append,
    List.drop_of_length_le (Nat.le_add_right _ _), List.nil_append, List.drop_replicate,
    Nat.add_sub_cancel_left]

/-- A copy further on leaves the zeros before it. -/
theorem copyInto_behind_zeros {front source : Bytes} {zeros count start stop : Nat}
    (hstart : front.length + zeros = start) (hstop : start + source.length = stop)
    (hcount : zeros + source.length ≤ count) :
    copyInto (front ++ List.replicate count 0) start stop source =
      .ok (front ++ List.replicate zeros 0 ++ source ++
        List.replicate (count - zeros - source.length) 0) := by
  have hsplit : List.replicate count (0 : UInt8) =
      List.replicate zeros 0 ++ List.replicate (count - zeros) 0 := by
    rw [List.replicate_append_replicate, Nat.add_sub_cancel' (by omega)]
  have hlength : (front ++ List.replicate zeros (0 : UInt8)).length = start := by
    rw [List.length_append, List.length_replicate, hstart]
  rw [hsplit, ← List.append_assoc, copyInto_zeros hlength hstop (by omega)]

/-- A copy to the front of zeros. -/
theorem copyInto_front {source : Bytes} {count : Nat} (hcount : source.length ≤ count) :
    copyInto (List.replicate count 0) 0 source.length source =
      .ok (source ++ List.replicate (count - source.length) 0) :=
  @copyInto_zeros [] source count 0 source.length rfl (Nat.zero_add _) hcount

namespace Buffered

variable {b : Buffered} {d : Sha256}

/-- A buffer stands for a digest under way: what waits is the part in use, which is not all of
it. -/
structure Holds (b : Buffered) (d : Sha256) : Prop where
  chain_eq : b.chain = d.chain
  length_buffer : b.buffer.length = 64
  used_lt : b.used < 64
  take_buffer : b.buffer.take b.used = d.waiting
  total_eq : b.total = d.length

/-- At the beginning nothing waits. -/
theorem holds_start : Holds start Sha256.start :=
  ⟨rfl, List.length_replicate, by decide, rfl, rfl⟩

/-- What waits takes up the part in use. -/
theorem Holds.length_waiting (h : Holds b d) : d.waiting.length = b.used := by
  rw [← h.take_buffer, List.length_take, h.length_buffer, Nat.min_eq_left h.used_lt.le]

/-- Whole blocks are compressed, and what is left waits in the buffer. -/
theorem exists_drain (hbuffer : b.buffer.length = 64) (data : Bytes) :
    ∃ b', b.drain data = .ok b' ∧
      Holds b' ⟨(compressAll b.chain data).1, (compressAll b.chain data).2, b.total⟩ := by
  rw [compressAll_eq, drain]
  dsimp only
  have hrest : (data.drop (64 * (data.length / 64))).length < 64 := by
    rw [List.length_drop]
    omega
  generalize data.drop (64 * (data.length / 64)) = rest at *
  have hcopy : copyInto b.buffer 0 rest.length rest = .ok (rest ++ b.buffer.drop rest.length) :=
    copyInto_eq (by omega) (Nat.zero_add _)
  have hlength : (rest ++ b.buffer.drop rest.length).length = 64 := by
    rw [List.length_append, List.length_drop]
    omega
  rw [hcopy, ok_bind]
  exact ⟨_, rfl, rfl, hlength, hrest, List.take_left' rfl, rfl⟩

/-- What there is room for is copied behind the bytes in use. -/
theorem Holds.fill_eq (h : Holds b d) {data piece : Bytes}
    (hpiece : data.take (64 - b.used) = piece) :
    b.fill data =
      .ok ({ b with
        buffer := d.waiting ++ piece ++ b.buffer.drop (b.used + piece.length)
        used := b.used + piece.length }, data.drop piece.length) := by
  have hlt := h.used_lt
  have hbuffer := h.length_buffer
  have hcount : min (64 - b.used) data.length = piece.length := by rw [← hpiece, List.length_take]
  have htake : data.take piece.length = piece := by
    rw [← hcount, ← hpiece, List.take_eq_take_iff]
    omega
  rw [fill, minus, guarded_of hlt.le, ok_bind, hcount]
  dsimp only
  rw [slice_eq (Nat.zero_le _) (by omega), ok_bind, List.drop_zero, htake,
    copyInto_eq (by omega) rfl, ok_bind, slice_eq (by omega) le_rfl, ok_bind, List.take_length,
    h.take_buffer]

/-- Data for which there is room wait behind what has been waiting. -/
theorem Holds.exists_fill (h : Holds b d) {data : Bytes} (hshort : b.used + data.length < 64) :
    ∃ b', b.fill data = .ok (b', []) ∧ Holds b' { d with waiting := d.waiting ++ data } := by
  have hfilled : (d.waiting ++ data).length = b.used + data.length := by
    rw [List.length_append, h.length_waiting]
  have hfill := h.fill_eq (List.take_of_length_le (by omega : data.length ≤ 64 - b.used))
  rw [List.drop_length] at hfill
  refine ⟨_, hfill, h.chain_eq, ?_, hshort, List.take_left' hfilled, h.total_eq⟩
  rw [List.length_append, hfilled, List.length_drop, h.length_buffer]
  omega

/-- Other data fill the buffer up. -/
theorem Holds.fill_up (h : Holds b d) {data : Bytes} (hlong : 64 ≤ b.used + data.length) :
    b.fill data =
      .ok ({ b with buffer := d.waiting ++ data.take (64 - b.used), used := 64 },
        data.drop (64 - b.used)) := by
  have hlength : (data.take (64 - b.used)).length = 64 - b.used := by
    rw [List.length_take]
    omega
  rw [h.fill_eq rfl, hlength, Nat.add_sub_cancel' h.used_lt.le,
    List.drop_of_length_le h.length_buffer.le, List.append_nil]

/-- An update that does not make the message too long is one of the digest. -/
theorem Holds.exists_update (h : Holds b d) {data : Bytes}
    (hfits : b.total + data.length < 2 ^ 64) :
    ∃ b', b.update data = .ok b' ∧ Holds b' (d.update data) := by
  have hcounted : Holds { b with total := b.total + data.length }
      { d with length := d.length + data.length } :=
    ⟨h.chain_eq, h.length_buffer, h.used_lt, h.take_buffer, congrArg (· + _) h.total_eq⟩
  have hlt := h.used_lt
  have hwaiting := h.length_waiting
  rw [update, guarded_of hfits, ok_bind, Sha256.update]
  dsimp only
  split
  · next hused =>
    have hnone : d.waiting = [] := List.length_eq_zero_iff.mp (hwaiting.trans hused)
    rw [hnone, List.nil_append, ← h.chain_eq, ← h.total_eq]
    exact exists_drain hcounted.length_buffer data
  · next hused =>
    by_cases hshort : b.used + data.length < 64
    · obtain ⟨b', hfill, hb'⟩ := hcounted.exists_fill hshort
      rw [hfill, ok_bind]
      dsimp only
      rw [if_pos hb'.used_lt, compressAll_of_short d.chain]
      · exact ⟨b', rfl, hb'⟩
      · rwa [List.length_append, hwaiting]
    · rw [hcounted.fill_up (Nat.le_of_not_lt hshort), ok_bind]
      dsimp only
      rw [if_neg (Nat.lt_irrefl 64)]
      -- the buffer is a block now, and the rest of the data follows it
      have hblock : (d.waiting ++ data.take (64 - b.used)).length = 64 := by
        rw [List.length_append, List.length_take, hwaiting]
        omega
      have hsplit : compressAll d.chain (d.waiting ++ data) =
          compressAll (compress d.chain (d.waiting ++ data.take (64 - b.used)))
            (data.drop (64 - b.used)) := by
        rw [← compressAll_block_append _ hblock, List.append_assoc, List.take_append_drop]
      rw [hsplit, ← h.chain_eq, ← h.total_eq]
      exact exists_drain hblock _

/-- What waits is closed by a one bit, zeros up to a block and the length. -/
theorem Holds.close_eq (h : Holds b d) (bits : Nat) :
    b.close bits = .ok (d.waiting ++ [0x80] ++
      List.replicate ((if b.used + 9 ≤ 64 then 64 else 128) - (b.used + 9)) 0 ++
        Bytes.bigEndian 8 bits) := by
  have hlt := h.used_lt
  have hbuffer := h.length_buffer
  have hwaiting := h.length_waiting
  have hfield := Bytes.length_bigEndian 8 bits
  have hroom : b.used + 9 ≤ (if b.used + 9 ≤ 64 then 64 else 128) ∧
      (if b.used + 9 ≤ 64 then 64 else 128) ≤ 128 := by split <;> omega
  rw [close, slice_eq (Nat.zero_le _) (by omega), ok_bind, List.drop_zero, h.take_buffer]
  dsimp only
  generalize (if b.used + 9 ≤ 64 then 64 else 128) = length at *
  generalize Bytes.bigEndian 8 bits = field at *
  have hcopied : copyInto (List.replicate 128 0) 0 b.used d.waiting =
      .ok (d.waiting ++ List.replicate (128 - b.used) 0) := by
    rw [← hwaiting, copyInto_front (by omega)]
  have hmarked :
      copyInto (d.waiting ++ List.replicate (128 - b.used) 0) b.used (b.used + 1) [0x80] =
        .ok (d.waiting ++ [0x80] ++ List.replicate (128 - b.used - 1) 0) :=
    copyInto_zeros hwaiting rfl (by rw [List.length_singleton]; omega)
  have hmark : (d.waiting ++ [0x80]).length = b.used + 1 := by
    rw [List.length_append, hwaiting, List.length_singleton]
  generalize d.waiting ++ [0x80] = front at hmarked hmark ⊢
  have hcounted :
      copyInto (front ++ List.replicate (128 - b.used - 1) 0) (length - 8) length field =
        .ok (front ++ List.replicate (length - (b.used + 9)) 0 ++ field ++
          List.replicate (128 - b.used - 1 - (length - (b.used + 9)) - field.length) 0) :=
    copyInto_behind_zeros (by omega) (by omega) (by omega)
  have hend : (front ++ List.replicate (length - (b.used + 9)) 0 ++ field).length = length := by
    rw [List.length_append, List.length_append, List.length_replicate, hmark, hfield]
    omega
  rw [hcopied, ok_bind, hmarked, ok_bind, hcounted, ok_bind,
    slice_eq (Nat.zero_le _) (by rw [List.length_append]; omega), List.drop_zero,
    List.take_left' hend]

/-- The digest is given, if the bits of the message can be counted. -/
theorem Holds.finish_eq (h : Holds b d) :
    b.finish = if d.length < 2 ^ 61 then .ok d.finish else .error .overflow := by
  by_cases hfits : d.length < 2 ^ 61
  · have hzeros : (if b.used + 9 ≤ 64 then 64 - (b.used + 9) else 128 - (b.used + 9)) =
        (if b.used + 9 ≤ 64 then 64 else 128) - (b.used + 9) := by split <;> rfl
    rw [if_pos hfits, finish, h.total_eq, guarded_of (by omega), ok_bind, h.close_eq, ok_bind,
      Sha256.finish, h.length_waiting, hzeros, ← h.chain_eq, Nat.mul_comm 8, compressAll_eq]
  · rw [if_neg hfits, finish, h.total_eq, guarded_of_not (by omega)]
    rfl

/-- Taking in the pieces of a message in turn gives the digest, if the bits of the message can be
counted. -/
theorem Holds.run_eq (h : Holds b d) (pieces : List Bytes) :
    (do let b ← pieces.foldlM update b; b.finish) =
      if d.length + pieces.flatten.length < 2 ^ 61 then .ok (pieces.foldl Sha256.update d).finish
      else .error .overflow := by
  induction pieces generalizing b d with
  | nil => exact h.finish_eq
  | cons piece pieces ih =>
    rw [List.foldlM_cons, List.foldl_cons, List.flatten_cons, List.length_append, ← Nat.add_assoc]
    by_cases hfits : b.total + piece.length < 2 ^ 64
    · obtain ⟨b', hupdate, hb'⟩ := h.exists_update hfits
      rw [hupdate]
      exact ih hb'
    · rw [if_neg (by rw [← h.total_eq]; omega), update, guarded_of_not hfits]
      rfl

/-- A message that is taken in piece by piece has the digest of the whole, if its bits can be
counted; a longer one is refused. -/
theorem digest_eq (pieces : List Bytes) :
    digest pieces =
      if pieces.flatten.length < 2 ^ 61 then .ok (Sha256.digest pieces.flatten)
      else .error .overflow := by
  have hlength : Sha256.start.length + pieces.flatten.length = pieces.flatten.length :=
    Nat.zero_add _
  rw [digest, holds_start.run_eq, foldl_update_start, hlength]
  rfl

/-- A message whose bits can be counted has its digest when it is taken in at once. -/
theorem digest_singleton {message : Bytes} (h : message.length < 2 ^ 61) :
    digest [message] = .ok (Sha256.digest message) := by
  rw [digest_eq, List.flatten_singleton, if_pos h]

/-- A digest that has taken in a block goes on with the pieces of what follows it. -/
theorem digest_append {block : Bytes} (h : start.update block = .ok b) (pieces : List Bytes) :
    digest [block ++ pieces.flatten] = (do let b ← pieces.foldlM update b; b.finish) := by
  have hcut : [block ++ pieces.flatten].flatten = (block :: pieces).flatten := by
    rw [List.flatten_singleton, List.flatten_cons]
  rw [digest_eq, hcut, ← digest_eq, digest, List.foldlM_cons, h]
  rfl

end Buffered

/-- The zeros of the padding are the fewest that make whole blocks. -/
theorem isLeast_zeros (length : Nat) :
    IsLeast {zeros | 64 ∣ length + 1 + zeros + 8} ((119 - length % 64) % 64) := by
  constructor
  · change 64 ∣ length + 1 + (119 - length % 64) % 64 + 8
    omega
  · intro zeros hzeros
    change 64 ∣ length + 1 + zeros + 8 at hzeros
    omega

/-- A message of fewer than `2 ^ 61` bytes has one digest, however it is cut and whichever way it
is taken in: piece by piece in a buffer of one block, with no fault on the way, piece by piece on
lists, or at once. It is the compression of the blocks of the message, a one bit, the fewest zeros
that make whole blocks, and the length in bits as a number of eight bytes. -/
theorem streaming_exact {message : Bytes} (hlength : message.length < 2 ^ 61) {pieces : List Bytes}
    (hpieces : pieces.flatten = message) :
    Buffered.digest pieces = .ok (digest message) ∧
      (pieces.foldl update start).finish = digest message ∧
      ∃ (zeros : Nat) (bits : Bytes),
        IsLeast {zeros | 64 ∣ message.length + 1 + zeros + 8} zeros ∧
        bits.length = 8 ∧ Bytes.toNat bits = 8 * message.length ∧
        digest message =
          ((blocks (message ++ [0x80] ++ List.replicate zeros 0 ++ bits)).foldl compress
            Chain.initial).toBytes := by
  subst hpieces
  refine ⟨?_, ?_, _, _, isLeast_zeros _, Bytes.length_bigEndian 8 _, ?_, digest_eq_blocks _⟩
  · rw [Buffered.digest_eq, if_pos hlength]
  · rw [foldl_update_start]
    rfl
  · exact Bytes.toNat_bigEndian_of_lt (by omega)

/-- The 56 bytes of the standard's second example, whose padding takes two blocks, in three pieces
of which one is empty. -/
theorem streaming_exact_two_blocks :
    let message := "abcdbcdecdefdefgefghfghighijhijkijkljklmklmnlmnomnopnopq".toList.map
      fun c ↦ UInt8.ofNat c.toNat
    let pieces := [message.take 20, [], message.drop 20]
    message.length < 2 ^ 61 ∧ pieces.flatten = message ∧
      Buffered.digest pieces = .ok (Bytes.bigEndian 32
        0x248d6a61d20638b8e5c026930c3e6039a33ce45964ff2167f6ecedd419db06c1) := by
  intro message pieces
  have hlength : message.length < 2 ^ 61 := by decide +kernel
  have hpieces : pieces.flatten = message := by decide +kernel
  have hdigest : digest message = Bytes.bigEndian 32
      0x248d6a61d20638b8e5c026930c3e6039a33ce45964ff2167f6ecedd419db06c1 := by decide +kernel
  refine ⟨hlength, hpieces, ?_⟩
  rw [← hdigest]
  exact (streaming_exact hlength hpieces).1

end Secp.Sha256
