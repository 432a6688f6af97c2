/-
  Packing values into buffers and out of them (`src/common/pack.c`, `src/common/pack.h`).

  1. **Packing appends** — `Packed b b' bs`: unless a packer has refused because the buffer would become too large,
     what was written before is followed by `bs` now; and none refuses while there are 16 MiB and a `BUF_SIZE` to
     spare.  It composes (`Packed.trans`).
  2. **There and back** — every unpacker takes what its packer appends (`takes_unpack`).  `xmalloc` ends the process
     when it cannot give a block; `room` is the largest block it gives.
  3. **Untrusted bytes** — nothing is read behind the end of the buffer.  But `unpack16_array` calls `abort` on a
     count above four million, and `unpack32_array` allocates whatever a count in the bytes asks for.
-/
import Slurmpp.Lib.Machine
import Slurmpp.Lib.Reader

namespace Slurmpp.Pack

open Reader List Nat

/-! ## Buffers -/

def bufSize : Nat := 16 * 1024

def maxBufSize : Nat := 0xffff0000

def maxPackArrayLen : Nat := 128 * 1024

def maxPackMemLen : Nat := 16 * 1024 * 1024

def maxPackStrLen : Nat := 16 * 1024 * 1024

/-- `SLURM_2_3_PROTOCOL_VERSION` -/
def slurm23 : BitVec 16 := 23 <<< 8

/-- `SLURM_2_5_PROTOCOL_VERSION` -/
def slurm25 : BitVec 16 := 25 <<< 8

/-- A buffer; `overflows` counts the messages "buffer size too large". -/
structure Buf extends Input where
  overflows : Nat

/-- `remaining_buf`, an unsigned 32-bit difference: it wraps around below zero. -/
def remainingBuf (i : Input) : Nat :=
  if i.pos ≤ i.data.length then i.data.length - i.pos else i.data.length + 2 ^ 32 - i.pos

def initBuf (size : Nat) : Option Buf :=
  if size > maxBufSize then none
  else some ⟨⟨replicate (if size = 0 then bufSize else size) 0, 0⟩, 0⟩

/-- `buffer->size += n; xrealloc(buffer->head, buffer->size)` -/
def grow (b : Buf) (n : Nat) : Buf := { b with data := b.data ++ replicate n 0 }

/-- `memcpy` to `&buffer->head[buffer->processed]`, and `processed` moves on. -/
def store (b : Buf) (bs : List Byte) : Buf :=
  { b with
    data := b.data.take b.pos ++ bs ++ b.data.drop (b.pos + bs.length)
    pos := b.pos + bs.length }

/-- `error("...: buffer size too large")` -/
def tooLarge (b : Buf) : Buf := { b with overflows := b.overflows + 1 }

variable {b b' b'' : Buf} {i : Input} {bs cs : List Byte} {n room : Nat}

theorem remainingBuf_eq (hpos : i.pos ≤ i.data.length) : remainingBuf i = i.data.length - i.pos := if_pos hpos

/-! ## Packing -/

/-- The common body of `pack_time`, `pack64`, `pack32`, `pack16` and `pack8`, and the beginning of
    `packstr_array`. -/
def packFixed (bs : List Byte) (b : Buf) : Buf :=
  if remainingBuf b.toInput < bs.length then
    if b.data.length > maxBufSize - bufSize then tooLarge b else store (grow b bufSize) bs
  else store b bs

def packTime (val : BitVec 64) : Buf → Buf := packFixed (beBytes 8 val.toNat)

def pack64 (val : BitVec 64) : Buf → Buf := packFixed (beBytes 8 val.toNat)

def pack32 (val : BitVec 32) : Buf → Buf := packFixed (beBytes 4 val.toNat)

def pack16 (val : BitVec 16) : Buf → Buf := packFixed (beBytes 2 val.toNat)

def pack8 (val : BitVec 8) : Buf → Buf := packFixed (beBytes 1 val.toNat)

/-- `pack16_array`; `size_val` is the length of the list. -/
def pack16Array (vals : List (BitVec 16)) (b : Buf) : Buf :=
  vals.foldl (fun b val => pack16 val b) (pack32 (BitVec.ofNat 32 vals.length) b)

def pack32Array (vals : List (BitVec 32)) (b : Buf) : Buf :=
  vals.foldl (fun b val => pack32 val b) (pack32 (BitVec.ofNat 32 vals.length) b)

/-- `packmem`.  `MAX_BUF_SIZE - size_val - BUF_SIZE` is unsigned: when it wraps around, the buffer is made
    smaller and the memory behind it is overwritten, which is `none`. -/
def packmem (bs : List Byte) (b : Buf) : Option Buf :=
  if remainingBuf b.toInput < 4 + bs.length then
    if bs.length + bufSize > maxBufSize then none
    else if b.data.length > maxBufSize - bs.length - bufSize then some (tooLarge b)
    else some (store (store (grow b (bs.length + bufSize)) (beBytes 4 bs.length)) bs)
  else some (store (store b (beBytes 4 bs.length)) bs)

/-- The bytes `packstr` hands to `packmem`: a string with its final `NUL`, or nothing for `NULL`. -/
def strBytes : Option (List Byte) → List Byte
  | none => []
  | some s => s ++ [0]

/-- The string in a block of memory: up to the first `NUL`. -/
def cString (block : List Byte) : List Byte := block.takeWhile (· ≠ 0)

/-- A block that holds a string and nothing behind it. -/
def IsCString (block : List Byte) : Prop := block = cString block ++ [0]

instance (block : List Byte) : Decidable (IsCString block) :=
  inferInstanceAs (Decidable (block = cString block ++ [0]))

def packstr (str : Option (List Byte)) (b : Buf) : Option Buf := packmem (strBytes str) b

def packstrArray (strs : List (Option (List Byte))) (b : Buf) : Option Buf :=
  strs.foldlM (fun b str => packstr str b) (packFixed (beBytes 4 strs.length) b)

/-! ## What packing does -/

structure Ok (b : Buf) : Prop where
  pos_le : b.pos ≤ b.data.length
  size_le : b.data.length ≤ maxBufSize

/-- `b'` is `b` with `bs` appended, unless a packer has refused. -/
structure Packed (b b' : Buf) (bs : List Byte) : Prop where
  ok : Ok b'
  le : b.overflows ≤ b'.overflows
  pos : b'.overflows = b.overflows → b'.pos = b.pos + bs.length
  written : b'.overflows = b.overflows → b'.data.take b'.pos = b.data.take b.pos ++ bs
  room : b.pos + bs.length + maxPackMemLen + bufSize ≤ maxBufSize → b'.overflows = b.overflows

theorem Packed.refl (h : Ok b) : Packed b b [] :=
  ⟨h, le_rfl, fun _ => rfl, fun _ => by rw [append_nil], fun _ => rfl⟩

theorem Packed.trans (h1 : Packed b b' bs) (h2 : Packed b' b'' cs) : Packed b b'' (bs ++ cs) := by
  have hsplit : b''.overflows = b.overflows → b'.overflows = b.overflows ∧ b''.overflows = b'.overflows := by
    intro h
    have := h1.le
    have := h2.le
    omega
  constructor
  · exact h2.ok
  · exact h1.le.trans h2.le
  · intro h
    obtain ⟨h', h''⟩ := hsplit h
    rw [h2.pos h'', h1.pos h', length_append, add_assoc]
  · intro h
    obtain ⟨h', h''⟩ := hsplit h
    rw [h2.written h'', h1.written h', append_assoc]
  · intro h
    rw [length_append] at h
    have h' := h1.room (by omega)
    have hpos := h1.pos h'
    rw [h2.room (by omega), h']

theorem length_store (hfit : b.pos + bs.length ≤ b.data.length) : (store b bs).data.length = b.data.length := by
  simp only [store, length_append, length_take, length_drop]
  omega

theorem take_store (hpos : b.pos ≤ b.data.length) :
    (store b bs).data.take (store b bs).pos = b.data.take b.pos ++ bs := by
  have hlen : (b.data.take b.pos ++ bs).length = b.pos + bs.length := by
    rw [length_append, length_take]
    omega
  show (b.data.take b.pos ++ bs ++ b.data.drop (b.pos + bs.length)).take (b.pos + bs.length) = _
  rw [← hlen, take_left]

theorem packed_store (h : Ok b) (hfit : b.pos + bs.length ≤ b.data.length) : Packed b (store b bs) bs := by
  constructor
  · constructor
    · rw [length_store hfit]
      exact hfit
    · rw [length_store hfit]
      exact h.size_le
  · exact le_rfl
  · intro _
    rfl
  · intro _
    exact take_store h.pos_le
  · intro _
    rfl

theorem ok_grow (h : Ok b) (hn : b.data.length + n ≤ maxBufSize) : Ok (grow b n) := by
  have hlen : (grow b n).data.length = b.data.length + n := by
    simp [grow]
  constructor
  · rw [hlen]
    exact h.pos_le.trans (le_add_right _ _)
  · rw [hlen]
    exact hn

theorem packed_grow (h : Ok b) (hn : b.data.length + n ≤ maxBufSize) : Packed b (grow b n) [] := by
  constructor
  · exact ok_grow h hn
  · exact le_rfl
  · intro _
    rfl
  · intro _
    show (b.data ++ replicate n 0).take b.pos = _
    rw [take_append_of_le_length h.pos_le, append_nil]
  · intro _
    rfl

theorem packed_tooLarge (h : Ok b)
    (hroom : ¬b.pos + bs.length + maxPackMemLen + bufSize ≤ maxBufSize) : Packed b (tooLarge b) bs := by
  have hne : ¬(tooLarge b).overflows = b.overflows := by
    simp [tooLarge]
  exact ⟨⟨h.pos_le, h.size_le⟩, le_succ _, fun e => absurd e hne, fun e => absurd e hne, fun hr => absurd hr hroom⟩

theorem Ok.remainingBuf_eq (h : Ok b) : remainingBuf b.toInput = b.data.length - b.pos := by
  exact Pack.remainingBuf_eq h.pos_le

theorem packed_packFixed (h : Ok b) (hbs : bs.length ≤ bufSize) : Packed b (packFixed bs b) bs := by
  have hpos := h.pos_le
  rw [packFixed, h.remainingBuf_eq]
  split_ifs with hfew hlarge
  · refine packed_tooLarge h ?_
    simp only [maxBufSize, bufSize, maxPackMemLen] at *
    omega
  · have hgrow : b.data.length + bufSize ≤ maxBufSize := by
      simp only [maxBufSize, bufSize] at *
      omega
    refine (packed_grow h hgrow).trans (packed_store (ok_grow h hgrow) ?_)
    simp only [grow, length_append, length_replicate]
    omega
  · exact packed_store h (by omega)

theorem packed_packmem (h : Ok b) (hbs : bs.length ≤ maxPackMemLen) :
    ∃ b', packmem bs b = some b' ∧ Packed b b' (beBytes 4 bs.length ++ bs) := by
  have hpos := h.pos_le
  have hstore : ∀ {c : Buf}, Ok c → c.pos + 4 + bs.length ≤ c.data.length →
      Packed c (store (store c (beBytes 4 bs.length)) bs) (beBytes 4 bs.length ++ bs) := by
    intro c hc hfit
    have hhead : c.pos + (beBytes 4 bs.length).length ≤ c.data.length := by
      rw [length_beBytes]
      omega
    have hlen := length_store hhead
    have h1 := packed_store hc hhead
    refine h1.trans (packed_store h1.ok ?_)
    rw [hlen, h1.pos rfl, length_beBytes]
    exact hfit
  rw [packmem, h.remainingBuf_eq]
  split_ifs with hfew hwrap hlarge
  · simp only [maxBufSize, bufSize, maxPackMemLen] at *
    omega
  · refine ⟨_, rfl, packed_tooLarge h ?_⟩
    rw [length_append, length_beBytes]
    simp only [maxBufSize, bufSize, maxPackMemLen] at *
    omega
  · have hgrow : b.data.length + (bs.length + bufSize) ≤ maxBufSize := by omega
    refine ⟨_, rfl, (packed_grow h hgrow).trans (hstore (ok_grow h hgrow) ?_)⟩
    simp only [grow, length_append, length_replicate, bufSize]
    omega
  · exact ⟨_, rfl, hstore h (by omega)⟩

theorem packed_foldl {α : Type} {f : Buf → α → Buf} {e : α → List Byte} {vals : List α}
    (hf : ∀ b, Ok b → ∀ v ∈ vals, Packed b (f b v) (e v)) (h : Ok b) :
    Packed b (vals.foldl f b) (vals.flatMap e) := by
  induction vals generalizing b with
  | nil => exact Packed.refl h
  | cons v vals ih =>
    have hv := hf b h v mem_cons_self
    exact hv.trans (ih (fun c hc w hw => hf c hc w (mem_cons_of_mem _ hw)) hv.ok)

theorem packed_foldlM {α : Type} {f : Buf → α → Option Buf} {e : α → List Byte} {vals : List α}
    (hf : ∀ b, Ok b → ∀ v ∈ vals, ∃ b', f b v = some b' ∧ Packed b b' (e v)) (h : Ok b) :
    ∃ b', vals.foldlM f b = some b' ∧ Packed b b' (vals.flatMap e) := by
  induction vals generalizing b with
  | nil => exact ⟨b, rfl, Packed.refl h⟩
  | cons v vals ih =>
    obtain ⟨c, hc, hpc⟩ := hf b h v mem_cons_self
    obtain ⟨b', hb', hp⟩ :=
      ih (fun c hc w hw => hf c hc w (mem_cons_of_mem _ hw)) hpc.ok
    refine ⟨b', ?_, hpc.trans hp⟩
    rw [foldlM_cons, hc]
    exact hb'

/-! ## Unpacking -/

/-- `if (remaining_buf(buffer) < n) return SLURM_ERROR;` -/
def guarded {α : Type} (n : Nat) (r : Reader α) : Reader α := fun i =>
  if remainingBuf i < n then .error i else r i

/-- `xmalloc`, or `malloc` with its check. -/
def xmalloc (room n : Nat) : Reader Unit := if n ≤ room then ret () else die

/-- The common body of `unpack_time`, `unpack64`, `unpack32`, `unpack16` and `unpack8`, and the
    beginning of the others. -/
def unpackFixed (n : Nat) : Reader Nat := guarded n ((read n).bind fun bs => ret (beNat bs))

def unpackTime : Reader Nat := unpackFixed 8

def unpack64 : Reader Nat := unpackFixed 8

def unpack32 : Reader Nat := unpackFixed 4

def unpack16 : Reader Nat := unpackFixed 2

def unpack8 : Reader Nat := unpackFixed 1

def unpack16Array (room : Nat) : Reader (Nat × List Nat) :=
  unpack32.bind fun size =>
    if size > 4000000 then die
    else (xmalloc room (size * 2)).bind fun _ => (unpack16.times size).bind fun vals => ret (size, vals)

def unpack32Array (room : Nat) : Reader (Nat × List Nat) :=
  unpack32.bind fun size =>
    (xmalloc room (size * 4)).bind fun _ => (unpack32.times size).bind fun vals => ret (size, vals)

/-- The common body of the `unpackmem` family: the size and the data, where `none` is `NULL`. -/
def unpackBlock (limit : Nat) (alloc : Nat → Reader Unit) : Reader (Nat × Option (List Byte)) :=
  unpack32.bind fun size =>
    if size > limit then fail
    else if size > 0 then
      guarded size ((alloc size).bind fun _ => (read size).bind fun bs => ret (size, some bs))
    else ret (size, none)

/-- `unpackmem_ptr` points into the buffer. -/
def unpackmemPtr : Reader (Nat × Option (List Byte)) := unpackBlock maxPackMemLen fun _ => ret ()

/-- `unpackmem` copies to memory of the caller; of nothing it makes an empty string there. -/
def unpackmem : Reader (Nat × Option (List Byte)) := unpackBlock maxPackMemLen fun _ => ret ()

def unpackmemXmalloc (room : Nat) : Reader (Nat × Option (List Byte)) :=
  unpackBlock maxPackStrLen (xmalloc room)

def unpackmemMalloc (room : Nat) : Reader (Nat × Option (List Byte)) :=
  unpackBlock maxPackStrLen (xmalloc room)

def unpackstrArray (room : Nat) : Reader (Nat × List (Option (List Byte))) :=
  unpack32.bind fun size =>
    if size > maxPackArrayLen then fail
    else if size > 0 then
      (xmalloc room (8 * (size + 1))).bind fun _ =>
        (((unpackmemXmalloc room).bind fun r => ret r.2).times size).bind fun strs => ret (size, strs)
    else ret (size, [])

/-! ## Values, packed and unpacked -/

inductive BlockCall
  | ptr
  | copy
  | xmalloc
  | malloc
deriving DecidableEq

/-- A value to pack; a block is also given the function that will unpack it. -/
inductive Value
  | time (val : BitVec 64)
  | u64 (val : BitVec 64)
  | u32 (val : BitVec 32)
  | u16 (val : BitVec 16)
  | u8 (val : BitVec 8)
  | u16s (vals : List (BitVec 16))
  | u32s (vals : List (BitVec 32))
  | mem (how : BlockCall) (bs : List Byte)
  | str (how : BlockCall) (str : Option (List Byte))
  | strs (strs : List (Option (List Byte)))

inductive Call
  | time
  | u64
  | u32
  | u16
  | u8
  | u16s
  | u32s
  | block (how : BlockCall)
  | strs
deriving DecidableEq

/-- What an unpacker gives: a number, or a count with numbers, data or strings. -/
inductive Got
  | num (val : Nat)
  | nums (size : Nat) (vals : List Nat)
  | block (size : Nat) (data : Option (List Byte))
  | strs (size : Nat) (strs : List (Option (List Byte)))
deriving DecidableEq

def Value.call : Value → Call
  | .time _ => .time
  | .u64 _ => .u64
  | .u32 _ => .u32
  | .u16 _ => .u16
  | .u8 _ => .u8
  | .u16s _ => .u16s
  | .u32s _ => .u32s
  | .mem how _ => .block how
  | .str how _ => .block how
  | .strs _ => .strs

/-- The pointer that unpacking gives for data: `NULL` for no data. -/
def toPtr (bs : List Byte) : Option (List Byte) := if bs = [] then none else some bs

/-- The same value, as it is to come out again. -/
def Value.got : Value → Got
  | .time val => .num val.toNat
  | .u64 val => .num val.toNat
  | .u32 val => .num val.toNat
  | .u16 val => .num val.toNat
  | .u8 val => .num val.toNat
  | .u16s vals => .nums vals.length (vals.map BitVec.toNat)
  | .u32s vals => .nums vals.length (vals.map BitVec.toNat)
  | .mem _ bs => .block bs.length (toPtr bs)
  | .str _ s => .block (strBytes s).length (s.map (· ++ [0]))
  | .strs ss => .strs ss.length (ss.map fun s => s.map (· ++ [0]))

def pack : Value → Buf → Option Buf
  | .time val, b => some (packTime val b)
  | .u64 val, b => some (pack64 val b)
  | .u32 val, b => some (pack32 val b)
  | .u16 val, b => some (pack16 val b)
  | .u8 val, b => some (pack8 val b)
  | .u16s vals, b => some (pack16Array vals b)
  | .u32s vals, b => some (pack32Array vals b)
  | .mem _ bs, b => packmem bs b
  | .str _ str, b => packstr str b
  | .strs strs, b => packstrArray strs b

def unpackBlockCall (room : Nat) : BlockCall → Reader (Nat × Option (List Byte))
  | .ptr => unpackmemPtr
  | .copy => unpackmem
  | .xmalloc => unpackmemXmalloc room
  | .malloc => unpackmemMalloc room

def unpack (room : Nat) : Call → Reader Got
  | .time => unpackTime.bind fun val => ret (.num val)
  | .u64 => unpack64.bind fun val => ret (.num val)
  | .u32 => unpack32.bind fun val => ret (.num val)
  | .u16 => unpack16.bind fun val => ret (.num val)
  | .u8 => unpack8.bind fun val => ret (.num val)
  | .u16s => (unpack16Array room).bind fun r => ret (.nums r.1 r.2)
  | .u32s => (unpack32Array room).bind fun r => ret (.nums r.1 r.2)
  | .block how => (unpackBlockCall room how).bind fun r => ret (.block r.1 r.2)
  | .strs => (unpackstrArray room).bind fun r => ret (.strs r.1 r.2)

def packAll (vals : List Value) (b : Buf) : Option Buf := vals.foldlM (fun b val => pack val b) b

def unpackAll (room : Nat) : List Call → Reader (List Got)
  | [] => ret []
  | c :: cs => (unpack room c).bind fun v => (unpackAll room cs).bind fun vs => ret (v :: vs)

/-! ## There and back -/

def wire : Value → List Byte
  | .time val => beBytes 8 val.toNat
  | .u64 val => beBytes 8 val.toNat
  | .u32 val => beBytes 4 val.toNat
  | .u16 val => beBytes 2 val.toNat
  | .u8 val => beBytes 1 val.toNat
  | .u16s vals => beBytes 4 vals.length ++ vals.flatMap fun val => beBytes 2 val.toNat
  | .u32s vals => beBytes 4 vals.length ++ vals.flatMap fun val => beBytes 4 val.toNat
  | .mem _ bs => beBytes 4 bs.length ++ bs
  | .str _ str => beBytes 4 (strBytes str).length ++ strBytes str
  | .strs strs => beBytes 4 strs.length ++
      strs.flatMap fun str => beBytes 4 (strBytes str).length ++ strBytes str

/-- A block within the limits of the function that unpacks it. -/
def BlockCall.Fits (room size : Nat) : BlockCall → Prop
  | .ptr | .copy => size ≤ maxPackMemLen
  | .xmalloc | .malloc => size ≤ maxPackStrLen ∧ size ≤ room

instance (room size : Nat) (how : BlockCall) : Decidable (how.Fits room size) := by
  cases how <;> unfold BlockCall.Fits <;> infer_instance

def Value.Fits (room : Nat) : Value → Prop
  | .u16s vals => vals.length ≤ 4000000 ∧ vals.length * 2 ≤ room
  | .u32s vals => vals.length < 2 ^ 32 ∧ vals.length * 4 ≤ room
  | .mem how bs => how.Fits room bs.length
  | .str how s => how.Fits room (strBytes s).length
  | .strs ss => ss.length ≤ maxPackArrayLen ∧ 8 * (ss.length + 1) ≤ room ∧
      ∀ s ∈ ss, BlockCall.xmalloc.Fits room (strBytes s).length
  | _ => True

instance (room : Nat) (val : Value) : Decidable (val.Fits room) := by
  cases val <;> unfold Value.Fits <;> infer_instance

theorem BlockCall.Fits.le {how : BlockCall} (h : how.Fits room n) : n ≤ maxPackMemLen := by
  cases how with
  | ptr | copy => exact h
  | xmalloc | malloc => exact h.1

theorem packed_pack {val : Value} (hval : val.Fits room) (h : Ok b) :
    ∃ b', pack val b = some b' ∧ Packed b b' (wire val) := by
  have hfixed : ∀ {c : Buf} (k x : Nat), Ok c → k ≤ 8 → Packed c (packFixed (beBytes k x) c) (beBytes k x) := by
    intro c k x hc hk
    refine packed_packFixed hc ?_
    rw [length_beBytes, bufSize]
    omega
  have hcount : ∀ len, len < 2 ^ 32 → (BitVec.ofNat 32 len).toNat = len := by
    intro len hlen
    rw [BitVec.toNat_ofNat, mod_eq_of_lt hlen]
  cases val with
  | time | u64 => exact ⟨_, rfl, hfixed 8 _ h (by decide)⟩
  | u32 val => exact ⟨_, rfl, hfixed 4 _ h (by decide)⟩
  | u16 val => exact ⟨_, rfl, hfixed 2 _ h (by decide)⟩
  | u8 val => exact ⟨_, rfl, hfixed 1 _ h (by decide)⟩
  | u16s vals =>
    have hlen : vals.length < 2 ^ 32 := lt_of_le_of_lt hval.1 (by decide)
    refine ⟨_, rfl, ?_⟩
    rw [pack16Array, pack32, hcount _ hlen]
    have hhead := hfixed 4 vals.length h (by decide)
    exact hhead.trans (packed_foldl (fun c hc v _ => hfixed 2 v.toNat hc (by decide)) hhead.ok)
  | u32s vals =>
    refine ⟨_, rfl, ?_⟩
    rw [pack32Array, show pack32 (BitVec.ofNat 32 vals.length) b = packFixed (beBytes 4 vals.length) b by
      rw [pack32, hcount _ hval.1]]
    have hhead := hfixed 4 vals.length h (by decide)
    exact hhead.trans (packed_foldl (fun c hc v _ => hfixed 4 v.toNat hc (by decide)) hhead.ok)
  | mem | str => exact packed_packmem h hval.le
  | strs strs =>
    have hhead := hfixed 4 strs.length h (by decide)
    obtain ⟨b', hb', hrest⟩ := packed_foldlM (f := fun b str => packstr str b)
      (fun c hc str hstr => packed_packmem hc (hval.2.2 str hstr).le) hhead.ok
    exact ⟨b', hb', hhead.trans hrest⟩

theorem packAll_cons (val : Value) (vals : List Value) :
    packAll (val :: vals) b = (pack val b).bind fun b => packAll vals b := by
  rw [packAll, foldlM_cons]
  rfl

theorem packed_packAll {vals : List Value} (hvals : ∀ val ∈ vals, val.Fits room) (h : Ok b) :
    ∃ b', packAll vals b = some b' ∧ Packed b b' (vals.flatMap wire) :=
  packed_foldlM (fun _ hc val hval => packed_pack (hvals val hval) hc) h

/-! A value is read where its bytes are, and its unpacker reports an error where they are cut off. -/

theorem takes_guarded {α : Type} {r : Reader α} {v : α} (hr : Reads r bs v) (hn : n = bs.length) :
    Takes (guarded n r) bs v := by
  constructor
  · intro i hpos hahead
    have := pos_add_le hpos hahead
    rw [guarded, remainingBuf_eq hpos, if_neg (by omega)]
    exact hr i hpos hahead
  · intro i hpos hahead hne
    have hlt : i.ahead.length < bs.length :=
      lt_of_le_of_ne hahead.length_le fun h => hne (hahead.eq_of_length h)
    rw [Input.ahead, length_drop] at hlt
    refine ⟨i, ?_⟩
    rw [guarded, remainingBuf_eq hpos, if_pos (by omega)]

variable {k x limit size : Nat}

theorem takes_unpackFixed (hx : x < 256 ^ k) : Takes (unpackFixed k) (beBytes k x) x := by
  refine takes_guarded ?_ (length_beBytes k x).symm
  have h := (reads_read (beBytes k x)).map (f := beNat)
  rwa [length_beBytes, beNat_beBytes hx] at h

theorem reads_unpackFixed (hx : x < 256 ^ k) : Reads (unpackFixed k) (beBytes k x) x :=
  (takes_unpackFixed hx).reads

theorem xmalloc_eq (h : n ≤ room) : xmalloc room n = ret () := if_pos h

theorem takes_xmalloc (h : n ≤ room) : Takes (xmalloc room n) [] () := by
  rw [xmalloc_eq h]
  exact takes_ret ()

variable {alloc : Nat → Reader Unit}

theorem takes_unpackBlock (hsize : bs.length ≤ limit)
    (hlimit : limit < 2 ^ 32) (halloc : Takes (alloc bs.length) [] ()) :
    Takes (unpackBlock limit alloc) (beBytes 4 bs.length ++ bs) (bs.length, toPtr bs) := by
  refine (takes_unpackFixed (by omega)).bind ?_
  rw [if_neg (by omega)]
  by_cases hbs : bs = []
  · subst hbs
    exact takes_ret _
  · rw [if_pos (length_pos_iff.2 hbs), toPtr, if_neg hbs]
    refine takes_guarded ?_ rfl
    exact halloc.reads.bind (Reads.map (reads_read bs))

theorem takes_unpackBlockCall {how : BlockCall} (h : how.Fits room bs.length) :
    Takes (unpackBlockCall room how) (beBytes 4 bs.length ++ bs) (bs.length, toPtr bs) := by
  cases how with
  | ptr | copy => exact takes_unpackBlock h (by decide) (takes_ret ())
  | xmalloc | malloc => exact takes_unpackBlock h.1 (by decide) (takes_xmalloc h.2)

theorem toPtr_strBytes (str : Option (List Byte)) : toPtr (strBytes str) = str.map (· ++ [0]) := by
  cases str with
  | none => rfl
  | some s => simp [toPtr, strBytes]

variable {str : Option (List Byte)}

section

variable (h : ∀ s ∈ str, IsCString s)
include h

theorem strBytes_cString : strBytes (str.map cString) = str.getD [] := by
  cases str with
  | none => rfl
  | some s => exact (h s rfl).symm

theorem fits_cString (hroom : maxPackStrLen ≤ room)
    (hlen : ∀ s ∈ str, s.length ≤ maxPackStrLen) :
    (Value.str .xmalloc (str.map cString)).Fits room := by
  show BlockCall.xmalloc.Fits room (strBytes (str.map cString)).length
  rw [strBytes_cString h]
  cases str with
  | none => exact ⟨zero_le _, zero_le _⟩
  | some s => exact ⟨hlen s rfl, (hlen s rfl).trans hroom⟩

/-- **A string comes back as the block it was in.** -/
theorem takes_cString (hfit : (Value.str .xmalloc (str.map cString)).Fits room) :
    Takes (unpackmemXmalloc room) (wire (.str .xmalloc (str.map cString)))
      ((strBytes (str.map cString)).length, str) := by
  have hptr : toPtr (strBytes (str.map cString)) = str := by
    rw [strBytes_cString h]
    cases str with
    | none => rfl
    | some s =>
      have hs : s ≠ [] := by
        rw [h s rfl]
        exact append_ne_nil_of_right_ne_nil _ (by simp)
      exact if_neg hs
  have hread : Takes (unpackBlockCall room .xmalloc) _ _ := takes_unpackBlockCall hfit
  rw [hptr] at hread
  exact hread

end

theorem takes_times_fixed {w : Nat} (vals : List (BitVec w)) (hk : 2 ^ w = 256 ^ k) :
    Takes ((unpackFixed k).times vals.length) (vals.flatMap fun val => beBytes k val.toNat) (vals.map BitVec.toNat) :=
  takes_times fun v _ => takes_unpackFixed (hk ▸ v.isLt)

theorem takes_unpack16Array {vals : List (BitVec 16)} (hvals : (Value.u16s vals).Fits room) :
    Takes (unpack16Array room) (wire (.u16s vals)) (vals.length, vals.map BitVec.toNat) := by
  obtain ⟨hcount, hroom⟩ := hvals
  refine (takes_unpackFixed (by omega)).bind ?_
  rw [if_neg (by omega)]
  exact (takes_xmalloc hroom).bind (Takes.map (takes_times_fixed vals (by norm_num)))

theorem takes_unpack32Array {vals : List (BitVec 32)} (hvals : (Value.u32s vals).Fits room) :
    Takes (unpack32Array room) (wire (.u32s vals)) (vals.length, vals.map BitVec.toNat) := by
  obtain ⟨hcount, hroom⟩ := hvals
  refine (takes_unpackFixed (by omega)).bind ?_
  exact (takes_xmalloc hroom).bind (Takes.map (takes_times_fixed vals (by norm_num)))

theorem takes_unpack {val : Value} (hval : val.Fits room) : Takes (unpack room val.call) (wire val) val.got := by
  have hnum : ∀ {w : Nat} (k : Nat) (val : BitVec w), 2 ^ w = 256 ^ k →
      Takes ((unpackFixed k).bind fun val => ret (Got.num val)) (beBytes k val.toNat) (.num val.toNat) :=
    fun k val hk => Takes.map (takes_unpackFixed (hk ▸ val.isLt))
  cases val with
  | time val | u64 val => exact hnum 8 val (by norm_num)
  | u32 val => exact hnum 4 val (by norm_num)
  | u16 val => exact hnum 2 val (by norm_num)
  | u8 val => exact hnum 1 val (by norm_num)
  | u16s vals =>
    exact Takes.map (takes_unpack16Array hval)
  | u32s vals =>
    exact Takes.map (takes_unpack32Array hval)
  | mem how bs =>
    exact Takes.map
      (takes_unpackBlockCall hval)
  | str how str =>
    have h := Takes.map (f := fun r : Nat × Option (List Byte) => Got.block r.1 r.2)
      (takes_unpackBlockCall hval)
    rw [toPtr_strBytes] at h
    exact h
  | strs strs =>
    obtain ⟨hcount, hroom, hstrs⟩ := hval
    have hmax : maxPackArrayLen < 2 ^ 32 := by decide
    refine Takes.map (f := fun r : Nat × List (Option (List Byte)) => Got.strs r.1 r.2)
      (v := (_, _)) ?_
    refine (takes_unpackFixed (by omega)).bind ?_
    rw [if_neg (by omega)]
    by_cases hne : strs = []
    · subst hne
      exact takes_ret _
    · rw [if_pos (length_pos_iff.2 hne)]
      refine (takes_xmalloc hroom).bind (Takes.map (takes_times fun str hstr => ?_))
      have h := (takes_unpackBlockCall (hstrs str hstr)).map (f := Prod.snd)
      rw [toPtr_strBytes] at h
      exact h

theorem takes_unpackAll {vals : List Value} (hvals : ∀ val ∈ vals, val.Fits room) :
    Takes (unpackAll room (vals.map Value.call)) (vals.flatMap wire) (vals.map Value.got) := by
  induction vals with
  | nil => exact takes_ret []
  | cons val vals ih =>
    have hrest := ih (forall_mem_cons.1 hvals).2
    exact (takes_unpack (hvals val mem_cons_self)).bind
      (hrest.map)

theorem ok_initBuf (h : initBuf size = some b) : Ok b ∧ b.pos = 0 ∧ b.overflows = 0 := by
  unfold initBuf at h
  split at h
  · cases h
  · cases h
    refine ⟨⟨zero_le _, ?_⟩, rfl, rfl⟩
    rw [length_replicate]
    split_ifs
    · decide
    · omega

theorem ahead_of_packed {bs : List Byte} (hb : b.pos = 0) (hover : b.overflows = 0)
    (hp : Packed b b' bs) (hfine : b'.overflows = 0) (hi : i.pos = 0)
    (hdata : b'.data.take b'.pos <+: i.data) : b'.pos = bs.length ∧ bs <+: i.ahead := by
  have hsame : b'.overflows = b.overflows := by rw [hfine, hover]
  have hwritten := hp.written hsame
  rw [hb, take_zero, nil_append] at hwritten
  constructor
  · rw [hp.pos hsame, hb, zero_add]
  · rw [Input.ahead, hi, drop_zero, ← hwritten]
    exact hdata

/-- **The wire round trip.**  Values within their limits, packed one after the other into a new buffer,
    can always be packed; no packer refuses while there are 16 MiB and a `BUF_SIZE` to spare below
    `MAX_BUF_SIZE`; and if none has refused, then unpacking what was written from its beginning gives
    the values again, with their lengths, and ends exactly where packing ended. -/
theorem wire_round_trip {vals : List Value} (hvals : ∀ val ∈ vals, val.Fits room) {size : Nat}
    (hinit : initBuf size = some b) : ∃ b', packAll vals b = some b' ∧
      ((vals.flatMap wire).length + maxPackMemLen + bufSize ≤ maxBufSize → b'.overflows = 0) ∧
      (b'.overflows = 0 → ∀ i : Input, i.pos = 0 → b'.data.take b'.pos <+: i.data →
        unpackAll room (vals.map Value.call) i = .ok (vals.map Value.got) (i.advance b'.pos)) := by
  obtain ⟨hok, hpos, hover⟩ := ok_initBuf hinit
  obtain ⟨b', hpack, hpacked⟩ := packed_packAll hvals hok
  refine ⟨b', hpack, fun hspare => ?_, fun hfine i hi hprefix => ?_⟩
  · rw [hpacked.room (by rw [hpos]; omega), hover]
  · obtain ⟨hend, hahead⟩ := ahead_of_packed hpos hover hpacked hfine hi hprefix
    rw [hend]
    exact (takes_unpackAll hvals).reads i (by omega) hahead

/-- One value of each type, into a buffer that is too small for any of the larger ones. -/
def mixedValues : List Value :=
  [.time (-5), .u64 7, .u32 0xfffffffe, .u16 258, .u8 255, .u16s [1, 2], .u32s [], .mem .ptr [],
    .mem .malloc [9, 0, 9], .str .xmalloc none, .str .copy (some []), .strs [some [65], none, some []]]

theorem wire_round_trip_mixed : ∃ b b', initBuf 4 = some b ∧ packAll mixedValues b = some b' ∧
    b'.overflows = 0 ∧ unpackAll (2 ^ 31 - 1) (mixedValues.map Value.call) ⟨b'.data, 0⟩ =
      .ok (mixedValues.map Value.got) ⟨b'.data, b'.pos⟩ := by
  have hvals : ∀ val ∈ mixedValues, val.Fits (2 ^ 31 - 1) := by decide
  have hinit : initBuf 4 = some ⟨⟨replicate 4 0, 0⟩, 0⟩ := rfl
  obtain ⟨b', hpack, hspare, hback⟩ := wire_round_trip hvals hinit
  have hover : b'.overflows = 0 := hspare (by decide)
  refine ⟨_, b', hinit, hpack, hover, ?_⟩
  have h := hback hover ⟨b'.data, 0⟩ rfl (List.take_prefix _ _)
  rwa [Input.advance, zero_add] at h

/-! ## Untrusted bytes -/

variable {j : Input}

theorem unpackFixed_lt (h : unpackFixed n i = .ok x j) : x < 256 ^ n := by
  unfold unpackFixed guarded at h
  split at h
  · cases h
  · obtain ⟨bs, k, hbs, h⟩ := bind_eq_ok h
    cases h
    exact (beNat_lt bs).trans_le (Nat.pow_le_pow_right (by decide) (length_le_of_read hbs))

theorem unpackFixed_ok (hpos : i.pos ≤ i.data.length) (hfit : i.pos + n ≤ i.data.length) :
    ∃ x, unpackFixed n i = .ok x (i.advance n) := by
  refine ⟨beNat (i.ahead.take n), ?_⟩
  rw [unpackFixed, guarded, remainingBuf_eq hpos, if_neg (by omega), Reader.bind, Reader.read, if_pos hfit]
  rfl

theorem unpackFixed_error (hpos : i.pos ≤ i.data.length) (hfit : i.data.length < i.pos + n) :
    unpackFixed n i = .error i := by
  rw [unpackFixed, guarded, remainingBuf_eq hpos, if_pos (by omega)]

theorem unpackBlock_length_le {r : Nat × Option (List Byte)}
    (h : unpackBlock limit alloc i = .ok r j) : ∀ s ∈ r.2, s.length ≤ limit := by
  obtain ⟨size, k, -, h⟩ := bind_eq_ok h
  split_ifs at h with hlarge hsome
  · simp [fail] at h
  · unfold guarded at h
    split at h
    · cases h
    · obtain ⟨-, k, -, h⟩ := bind_eq_ok h
      obtain ⟨bs, l, hbs, h⟩ := bind_eq_ok h
      cases h
      intro s hs
      cases hs
      exact (length_le_of_read hbs).trans (by omega)
  · cases h
    simp

theorem unpack32Array_length {r : Nat × List Nat} (h : unpack32Array room i = .ok r j) : r.2.length = r.1 := by
  obtain ⟨size, k, -, h⟩ := bind_eq_ok h
  obtain ⟨-, k, -, h⟩ := bind_eq_ok h
  obtain ⟨vals, l, hvals, h⟩ := bind_eq_ok h
  cases h
  exact (times_eq_ok (fun _ _ _ _ => trivial) hvals).1

section

variable (h : i.pos ≤ i.data.length)
include h

theorem safe_guarded {α : Type} {r : Reader α} (hr : i.pos + n ≤ i.data.length → Safe r i) : Safe (guarded n r) i := by
  unfold Safe guarded
  rw [remainingBuf_eq h]
  split_ifs with hfew
  · exact ⟨i, .refl h, .inl rfl⟩
  · exact hr (by omega)

theorem safe_unpackFixed : Safe (unpackFixed n) i :=
  safe_guarded h fun hfit => (safe_read hfit).map

theorem safe_unpackBlock (halloc : ∀ size ≤ limit, alloc size = ret ()) : Safe (unpackBlock limit alloc) i := by
  refine (safe_unpackFixed h).bind fun size j _ hj => ?_
  by_cases hlarge : size > limit
  · rw [if_pos hlarge]
    exact safe_fail hj.pos_le_self
  rw [if_neg hlarge]
  by_cases hsome : size > 0
  · rw [if_pos hsome, halloc size (by omega)]
    exact safe_guarded hj.pos_le_self fun hfit => (safe_read hfit).map
  · rw [if_neg hsome]
    exact safe_ret _ hj.pos_le_self

theorem safe_unpackBlockCall (hroom : maxPackStrLen ≤ room) (how : BlockCall) : Safe (unpackBlockCall room how) i := by
  cases how with
  | ptr =>
    rw [unpackBlockCall, unpackmemPtr]
    exact safe_unpackBlock h fun _ _ => rfl
  | copy =>
    rw [unpackBlockCall, unpackmem]
    exact safe_unpackBlock h fun _ _ => rfl
  | xmalloc =>
    rw [unpackBlockCall, unpackmemXmalloc]
    exact safe_unpackBlock h fun size hsize => xmalloc_eq (hsize.trans hroom)
  | malloc =>
    rw [unpackBlockCall, unpackmemMalloc]
    exact safe_unpackBlock h fun size hsize => xmalloc_eq (hsize.trans hroom)

end

def countAhead (i : Input) : Option Nat :=
  match unpack32 i with
  | .ok size _ => some size
  | _ => none

/-- Counts of arrays that `unpack16_array` takes, and for which `unpack32_array` gets its memory. -/
def Sane (room : Nat) (i : Input) : Call → Prop
  | .u16s => ∀ size ∈ countAhead i, size ≤ 4000000
  | .u32s => ∀ size ∈ countAhead i, size * 4 ≤ room
  | _ => True

instance (room : Nat) (i : Input) (c : Call) : Decidable (Sane room i c) := by
  cases c <;> unfold Sane <;> infer_instance

theorem countAhead_eq (h : unpack32 i = .ok size j) : size ∈ countAhead i := by
  rw [countAhead, h]
  exact Option.mem_some_self size

/-- **Every unpacker is safe on every buffer**, arrays with sane counts. -/
theorem safe_unpack (hroom : maxPackStrLen ≤ room) {c : Call} (hc : Sane room i c)
    (h : i.pos ≤ i.data.length) : Safe (unpack room c) i := by
  have hmax : 16777216 ≤ room := hroom
  cases c with
  | time | u64 => exact (safe_unpackFixed h).map
  | u32 => exact (safe_unpackFixed h).map
  | u16 => exact (safe_unpackFixed h).map
  | u8 => exact (safe_unpackFixed h).map
  | u16s =>
    apply Safe.map
    refine (safe_unpackFixed h).bind fun size j hsize hj => ?_
    have hle := hc size (countAhead_eq hsize)
    rw [if_neg (by omega), xmalloc_eq (by omega)]
    exact (safe_times hj.pos_le_self fun k hk => safe_unpackFixed hk.pos_le_self).map
  | u32s =>
    apply Safe.map
    refine (safe_unpackFixed h).bind fun size j hsize hj => ?_
    rw [xmalloc_eq (hc size (countAhead_eq hsize))]
    exact (safe_times hj.pos_le_self fun k hk => safe_unpackFixed hk.pos_le_self).map
  | block how => exact (safe_unpackBlockCall h hroom how).map
  | strs =>
    apply Safe.map
    refine (safe_unpackFixed h).bind fun size j _ hj => ?_
    have hlen : maxPackArrayLen ≤ 131072 := by decide
    by_cases hlarge : size > maxPackArrayLen
    · rw [if_pos hlarge]
      exact safe_fail hj.pos_le_self
    rw [if_neg hlarge]
    by_cases hsome : size > 0
    · rw [if_pos hsome, xmalloc_eq (by omega)]
      apply Safe.map
      exact safe_times hj.pos_le_self fun k hk =>
        (safe_unpackBlockCall hk.pos_le_self hroom .xmalloc).map
    · rw [if_neg hsome]
      exact safe_ret _ hj.pos_le_self

/-- A program that unpacks: after an error it may go on with the same buffer. -/
def unpacking (room : Nat) : Machine Input Call where
  step i c :=
    match unpack room c i with
    | .ok _ j => some j
    | .error j => some j
    | _ => none

/-- **Unpacking untrusted bytes.**  Whatever the bytes of a buffer, after any sequence of calls in
    which the counts of arrays are sane, `processed` is at most `size`; and every further such
    call returns a value or an error, having read nothing outside of the buffer. -/
theorem unpack_total (hroom : maxPackStrLen ≤ room) {data : List Byte}
    (h : (unpacking room).Reach (Sane room) ⟨data, 0⟩ i) :
    i.data = data ∧ i.pos ≤ data.length ∧ ∀ c, Sane room i c → ∃ j : Input,
      j.data = data ∧ j.pos ≤ data.length ∧
      (unpack room c i = .error j ∨ ∃ v, unpack room c i = .ok v j) := by
  have hinv : i.data = data ∧ i.pos ≤ i.data.length := by
    refine h.invariant (I := fun i => i.data = data ∧ i.pos ≤ i.data.length) ?_ ?_
    · exact ⟨rfl, zero_le _⟩
    · rintro i c t ⟨hd, hle⟩ hc hstep
      obtain ⟨j, hj, hres⟩ := safe_unpack hroom hc hle
      obtain rfl : j = t := by
        rcases hres with hres | ⟨v, hres⟩ <;>
          · simp only [unpacking, hres] at hstep
            exact Option.some.inj hstep
      exact ⟨hj.data.trans hd, hj.pos_le_self⟩
  obtain ⟨rfl, hle⟩ := hinv
  refine ⟨rfl, hle, fun c hc => ?_⟩
  obtain ⟨j, hj, hres⟩ := safe_unpack hroom hc hle
  exact ⟨j, hj.data, hj.pos_le_length, hres⟩

/-- An array of strings that breaks off, and then an array of numbers that does. -/
theorem unpack_total_broken :
    let data : List Byte := [0, 0, 0, 2, 0, 0, 0, 0, 0, 0, 0, 9, 0, 0, 0, 1]
    ∃ i : Input, (unpacking (2 ^ 31 - 1)).run ⟨data, 0⟩ [.strs] = some i ∧ i.pos = 12 ∧
      ∃ j : Input, j.data = data ∧ j.pos ≤ data.length ∧
        (unpack (2 ^ 31 - 1) .u32s i = .error j ∨ ∃ v, unpack (2 ^ 31 - 1) .u32s i = .ok v j) := by
  intro data
  refine ⟨⟨data, 12⟩, rfl, rfl, ?_⟩
  have hreach : (unpacking (2 ^ 31 - 1)).Reach (Sane (2 ^ 31 - 1)) ⟨data, 0⟩ ⟨data, 12⟩ :=
    Machine.Reach.of_run [.strs] .start (by decide) rfl
  exact (unpack_total (by decide) hreach).2.2 .u32s (by decide)

/-- **Four bytes end the process**: a count of 4000001, with any memory one may ask for. -/
theorem count_aborts : unpack (2 ^ 64) .u16s ⟨[0x00, 0x3d, 0x09, 0x01], 0⟩ = .abort := rfl

end Slurmpp.Pack
