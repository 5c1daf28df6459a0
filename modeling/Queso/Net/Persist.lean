/-
The snapshot file of one replica: its layout, the sequence that replaces it, and the disk faults that can be injected
into that sequence.

A snapshot is a header (magic and schema version) before the payload of the serializer, which is a parameter. `load`
reads one file; a new snapshot is written to another, which is renamed over the first, and rename is atomic. A write
ends well, or with an injected fault, or because the process is killed in it. `writeBytesBlocking_path` is all that
matters of a write: the file that `load` reads is replaced if and only if the rename has landed.
-/
import Queso.Smr.Replica

namespace Queso.Net

abbrev Bytes := List UInt8

/-- `QSD1` -/
def MAGIC : Bytes := [0x51, 0x53, 0x44, 0x31]

def FORMAT_VERSION : UInt16 := 1

def HEADER_LEN : ℕ := MAGIC.length + 2

structure PersistedState where
  durable : Durable
  /-- the highest logical tick reached -/
  maxTick : ℕ
deriving DecidableEq

/-- the serializer of the payload -/
structure Bincode where
  serialize : PersistedState → Option Bytes
  deserialize : Bytes → Option PersistedState

/-- what was serialized deserializes to the same state -/
def Bincode.RoundTrips (b : Bincode) : Prop := ∀ s bytes, b.serialize s = some bytes → b.deserialize bytes = some s

/-- why a file is refused -/
inductive LoadError where
  | tooShort (len : ℕ)
  | unrecognizedMagic (magic : Bytes)
  | schemaVersion (version : UInt16)
  | payload
deriving DecidableEq, Repr

def toLeBytes (v : UInt16) : Bytes := [v.toUInt8, (v >>> 8).toUInt8]

def fromLeBytes (lo hi : UInt8) : UInt16 := lo.toUInt16 ||| (hi.toUInt16 <<< 8)

section Format

variable (b : Bincode)

def encode (durable : Durable) (maxTick : ℕ) : Option Bytes :=
  match b.serialize ⟨durable, maxTick⟩ with
  | none => none
  | some payload => some (MAGIC ++ toLeBytes FORMAT_VERSION ++ payload)

def decode (bytes : Bytes) : Except LoadError (Durable × ℕ) :=
  if bytes.length < HEADER_LEN then .error (.tooShort bytes.length)
  else
    let header := bytes.take HEADER_LEN
    let payload := bytes.drop HEADER_LEN
    let magic := header.take MAGIC.length
    if magic ≠ MAGIC then .error (.unrecognizedMagic magic)
    else
      let version := fromLeBytes (header.getD MAGIC.length 0) (header.getD (MAGIC.length + 1) 0)
      if version ≠ FORMAT_VERSION then .error (.schemaVersion version)
      else
        match b.deserialize payload with
        | none => .error .payload
        | some state => .ok (state.durable, state.maxTick)

variable {b}

/-- **Round trip.** An encoded snapshot is accepted and read back. -/
theorem decode_encode (hb : b.RoundTrips) {durable : Durable} {maxTick : ℕ} {bytes : Bytes}
    (h : encode b durable maxTick = some bytes) : decode b bytes = .ok (durable, maxTick) := by
  unfold encode at h
  cases hs : b.serialize ⟨durable, maxTick⟩ with
  | none => rw [hs] at h; exact absurd h (by simp)
  | some payload =>
    rw [hs] at h
    obtain rfl := Option.some.inj h
    have hlen : ¬ (MAGIC ++ toLeBytes FORMAT_VERSION ++ payload).length < HEADER_LEN := by
      simp [HEADER_LEN, MAGIC, toLeBytes]
    have hmagic : ((MAGIC ++ toLeBytes FORMAT_VERSION ++ payload).take HEADER_LEN).take MAGIC.length = MAGIC := rfl
    have hversion : fromLeBytes (((MAGIC ++ toLeBytes FORMAT_VERSION ++ payload).take HEADER_LEN).getD MAGIC.length 0)
        (((MAGIC ++ toLeBytes FORMAT_VERSION ++ payload).take HEADER_LEN).getD (MAGIC.length + 1) 0) =
          FORMAT_VERSION := by
      show fromLeBytes (toLeBytes FORMAT_VERSION)[0] (toLeBytes FORMAT_VERSION)[1] = FORMAT_VERSION
      decide
    unfold decode
    rw [if_neg hlen]
    dsimp only
    rw [if_neg (not_not.2 hmagic), if_neg (not_not.2 hversion)]
    rw [show (MAGIC ++ toLeBytes FORMAT_VERSION ++ payload).drop HEADER_LEN = payload from rfl, hb _ _ hs]

end Format

/-! ## Replacing the snapshot -/

/-- the two files of a replica -/
structure Disk where
  path : Option Bytes
  tmpPath : Option Bytes
deriving DecidableEq

def Disk.blank : Disk := ⟨none, none⟩

inductive DiskFaultPoint where
  | duringWrite (afterBytes : ℕ)
  | beforeRename
  | beforeDirSync
deriving DecidableEq, Repr

/-- a one-shot fault: it fires on the write after the first `skip` ones -/
structure DiskFault where
  point : DiskFaultPoint
  skip : ℕ
  /-- the writes begun so far -/
  seen : ℕ
  fired : Bool
deriving DecidableEq

/-- where the process is killed in a write: with so many bytes in the temporary file, or with the rename done -/
inductive WriteKill where
  | torn (written : ℕ)
  | renamed
deriving DecidableEq, Repr

/-- how an attempt to persist a snapshot ends -/
inductive WriteEnd where
  | done
  /-- the snapshot did not serialize -/
  | notEncoded
  | failed (point : DiskFaultPoint)
  | killed (point : WriteKill)
deriving DecidableEq, Repr

/-- the new snapshot is in place -/
def WriteEnd.landed : WriteEnd → Bool
  | .done => true
  | .failed .beforeDirSync => true
  | .killed .renamed => true
  | _ => false

structure Written where
  disk : Disk
  fault : Option DiskFault
  ending : WriteEnd

/-- the write that begins is past the skipped ones, and the fault has not fired -/
def DiskFault.armed (f : DiskFault) : Bool := decide (f.skip ≤ f.seen) && !f.fired

def DiskFault.fire (f : DiskFault) : DiskFault := { f with fired := true }

/-- the bytes after which an armed fault tears the write -/
def DiskFault.tears (f : DiskFault) : Option ℕ :=
  match f.point with
  | .duringWrite afterBytes => some afterBytes
  | _ => none

/-- the bytes after which the process is killed -/
def WriteKill.tears : WriteKill → Option ℕ
  | .torn written => some written
  | .renamed => none

/-- write the temporary file, sync it, rename it, sync the directory -/
def writeBytesBlocking (fault : Option DiskFault) (kill : Option WriteKill) (disk : Disk) (bytes : Bytes) : Written :=
  let armed := fault.filter DiskFault.armed
  let fault := fault.map fun f => { f with seen := f.seen + 1 }
  match kill.bind WriteKill.tears with
  | some written =>
    let reached := bytes.take ((armed.bind DiskFault.tears).getD bytes.length)
    ⟨{ disk with tmpPath := some (reached.take written) }, fault, .killed (.torn written)⟩
  | none =>
    match armed.bind DiskFault.tears with
    | some afterBytes =>
      ⟨{ disk with tmpPath := some (bytes.take afterBytes) }, fault.map .fire, .failed (.duringWrite afterBytes)⟩
    | none =>
      if (armed.any fun f => f.point == .beforeRename) = true then
        ⟨{ disk with tmpPath := some bytes }, fault.map .fire, .failed .beforeRename⟩
      else if kill = some .renamed then ⟨⟨some bytes, none⟩, fault, .killed .renamed⟩
      else if (armed.any fun f => f.point == .beforeDirSync) = true then
        ⟨⟨some bytes, none⟩, fault.map .fire, .failed .beforeDirSync⟩
      else ⟨⟨some bytes, none⟩, fault, .done⟩

/-- **All that a write does to the snapshot.** It is replaced once the rename has landed, and untouched before. -/
theorem writeBytesBlocking_path (fault : Option DiskFault) (kill : Option WriteKill) (disk : Disk) (bytes : Bytes) :
    (writeBytesBlocking fault kill disk bytes).disk.path =
      if (writeBytesBlocking fault kill disk bytes).ending.landed then some bytes else disk.path := by
  generalize hw : writeBytesBlocking fault kill disk bytes = w
  unfold writeBytesBlocking at hw
  dsimp only at hw
  cases hk : kill.bind WriteKill.tears with
  | some written =>
    rw [hk] at hw
    subst hw
    rfl
  | none =>
    rw [hk] at hw
    cases ht : (fault.filter DiskFault.armed).bind DiskFault.tears with
    | some afterBytes =>
      rw [ht] at hw
      subst hw
      rfl
    | none =>
      rw [ht] at hw
      dsimp only at hw
      split_ifs at hw
      all_goals
        subst hw
        rfl

/-- encode a snapshot and write it -/
def persist (b : Bincode) (fault : Option DiskFault) (kill : Option WriteKill) (disk : Disk) (durable : Durable)
    (maxTick : ℕ) : Written :=
  match encode b durable maxTick with
  | none => ⟨disk, fault, .notEncoded⟩
  | some bytes => writeBytesBlocking fault kill disk bytes

/-- the snapshot that a boot finds -/
def load (b : Bincode) (disk : Disk) : Except LoadError (Option (Durable × ℕ)) :=
  match disk.path with
  | none => .ok none
  | some bytes =>
    match decode b bytes with
    | .error e => .error e
    | .ok state => .ok (some state)

/-- **What a boot finds after an attempt to persist**: the new snapshot if the rename has landed, else what was there -/
theorem load_persist {b : Bincode} (hb : b.RoundTrips) (fault : Option DiskFault) (kill : Option WriteKill) (disk : Disk)
    (durable : Durable) (maxTick : ℕ) :
    load b (persist b fault kill disk durable maxTick).disk =
      if (persist b fault kill disk durable maxTick).ending.landed then .ok (some (durable, maxTick))
      else load b disk := by
  unfold persist
  cases he : encode b durable maxTick with
  | none => rfl
  | some bytes =>
    dsimp only
    have hpath := writeBytesBlocking_path fault kill disk bytes
    split_ifs at hpath ⊢ with hl
    · unfold load
      rw [hpath]
      dsimp only
      rw [decode_encode hb he]
    · unfold load
      rw [hpath]

end Queso.Net
