import Mathlib.Logic.Function.Basic
import RayPlatform.Communication.Message
import RayPlatform.Lib.ByteBuffer

/-!
# KeyValueStore

A rank pulls the value of a key from another rank, one part at a time: it asks for the
bytes from an offset on, the other rank answers with the length of the value and the
bytes that fit in a message, and the state of the transfer is in the item of the puller.

* A `char *` to a value is the list of the bytes it points at, `none` is `NULL`; what
  freshly allocated memory holds is an argument.
* `none` as a result is a null pointer that is dereferenced, a `memcpy` out of a buffer
  or a failed allocation.
-/

namespace RayPlatform

open Lib (readAt writeAt wordBytes bytesWord)

/-! ## KeyValueStoreItem -/

structure KeyValueStoreItem where
  value : Option (List UInt8)
  valueSize : Nat
  downloadedSize : Nat
  messageWasSent : Bool
  ready : Bool
  deriving DecidableEq, Repr

namespace KeyValueStoreItem

/-- The constructor leaves `m_messageWasSent` as it is; a ready item never reads it. -/
def constructor (value : Option (List UInt8)) (valueSize : Nat) : KeyValueStoreItem :=
  { value := value
    valueSize := valueSize
    downloadedSize := valueSize
    messageWasSent := false
    ready := true }

def startDownload (item : KeyValueStoreItem) : KeyValueStoreItem :=
  { item with ready := false, messageWasSent := false }

def sendMessage (item : KeyValueStoreItem) : KeyValueStoreItem :=
  { item with messageWasSent := true, ready := false }

def receiveMessage (item : KeyValueStoreItem) : KeyValueStoreItem :=
  if item.downloadedSize = item.valueSize then
    { item with messageWasSent := false, ready := true }
  else
    { item with messageWasSent := false }

end KeyValueStoreItem

/-! ## Messages -/

inductive StoreTag
  | RAYPLATFORM_MESSAGE_TAG_DOWNLOAD_OBJECT_PART
  | RAYPLATFORM_MESSAGE_TAG_DOWNLOAD_OBJECT_PART_REPLY
  deriving DecidableEq, Repr

structure StoreMessage (ι : Type) where
  tag : StoreTag
  source : ι
  destination : ι
  data : List UInt8
  deriving DecidableEq, Repr

/-- A string that is read up to its first NUL. -/
def cString (bytes : List UInt8) : List UInt8 :=
  bytes.takeWhile (· != 0)

/-- `memcpy` of an `int` number of bytes. -/
def memcpy (destination : List UInt8) (position : Nat) (source : List UInt8)
    (sourcePosition : Nat) (size : Int) : Option (List UInt8) :=
  if size < 0 then none
  else (readAt source sourcePosition size.toNat).bind fun data => writeAt destination position data

/-- The bytes of a header. -/
def messageHeader (key : List UInt8) (valueLength offset : Nat) : List UInt8 :=
  cString key ++ [0] ++ wordBytes 4 valueLength ++ wordBytes 4 offset

/-- The data and the position after the header. -/
def dumpMessageHeader (key : List UInt8) (valueLength offset : Nat) (buffer : List UInt8) :
    Option (List UInt8 × Nat) :=
  (writeAt buffer 0 (messageHeader key valueLength offset)).map fun buffer =>
    (buffer, (messageHeader key valueLength offset).length)

structure LoadedHeader where
  key : List UInt8
  valueSize : Nat
  offset : Nat
  position : Nat
  deriving DecidableEq, Repr

def loadMessageHeader (buffer : List UInt8) : Option LoadedHeader :=
  let key := cString buffer
  if key.length < buffer.length then
    (readAt buffer (key.length + 1) 4).bind fun valueSize =>
      (readAt buffer (key.length + 5) 4).map fun offset =>
        { key := key
          valueSize := bytesWord valueSize
          offset := bytesWord offset
          position := key.length + 9 }
  else none

/-- The bytes of the message units that are sent. -/
def messageData (buffer : List UInt8) (outputPosition : Nat) : List UInt8 :=
  let units := outputPosition / 8
  let units := if outputPosition % 8 ≠ 0 then units + 1 else units
  buffer.take (units * 8)

/-- The number of bytes after the header, with the arithmetic of `int` and `uint32_t`. -/
def bytesToCopy (valueLength offset position : Nat) : Int :=
  let bytesToCopy := ((valueLength : Int) - offset).bmod (2 ^ 32)
  let remainingBytes := (MAXIMUM_MESSAGE_SIZE_IN_BYTES : Int) - position
  if remainingBytes < bytesToCopy then remainingBytes else bytesToCopy

/-- A buffer of the outbox. -/
def outboxBuffer (memory : Nat → UInt8) : List UInt8 :=
  (List.range MAXIMUM_MESSAGE_SIZE_IN_BYTES).map memory

/-- `m_memoryAllocator` gives no more than a chunk. -/
def allocateMemory (memory : Nat → UInt8) (bytes : Nat) : Option (List UInt8) :=
  if bytes ≤ 33554432 then some ((List.range bytes).map memory) else none

/-! ## The store of a rank -/

structure KeyValueStore where
  items : List UInt8 → Option KeyValueStoreItem

namespace KeyValueStore

def empty : KeyValueStore :=
  { items := fun _ => none }

def set (store : KeyValueStore) (key : List UInt8) (item : KeyValueStoreItem) : KeyValueStore :=
  { items := Function.update store.items key (some item) }

def erase (store : KeyValueStore) (key : List UInt8) : KeyValueStore :=
  { items := Function.update store.items key none }

/-- The key has a maximum length of 255 bytes. -/
def getStringKey (key : List UInt8) : Option (List UInt8) :=
  if key.length + 1 > 256 then none else some (cString key)

def insertLocalKey (store : KeyValueStore) (key : List UInt8) (value : Option (List UInt8))
    (valueLength : Nat) : KeyValueStore × Bool :=
  match getStringKey key with
  | none => (store, false)
  | some keyObject =>
      match store.items keyObject with
      | some _ => (store, false)
      | none => (store.set keyObject (.constructor value valueLength), true)

def removeLocalKey (store : KeyValueStore) (key : List UInt8) : KeyValueStore :=
  match store.items key with
  | none => store
  | some _ => store.erase key

def getLocalKey (store : KeyValueStore) (key : List UInt8) : Option (Option (List UInt8) × Nat) :=
  match getStringKey key with
  | none => none
  | some keyObject =>
      match store.items keyObject with
      | none => none
      | some item => if item.ready then some (item.value, item.valueSize) else none

def getLocalItemFromKey (store : KeyValueStore) (key : List UInt8) : Option KeyValueStoreItem :=
  match getStringKey key with
  | none => none
  | some keyObject => store.items keyObject

variable {ι : Type}

/-- What `pullRemoteKeyWithLength` leaves: the store, the message sent and the result. -/
structure Pulled (ι : Type) where
  store : KeyValueStore
  sent : Option (StoreMessage ι)
  result : Bool

def pullRemoteKeyWithLength (store : KeyValueStore) (rank : ι) (key : List UInt8) (source : ι)
    (memory : Nat → UInt8) : Option (Pulled ι) :=
  match store.getLocalItemFromKey key with
  | none =>
      -- insert an item with an empty value
      let store := (store.insertLocalKey key none 0).1
      (store.getLocalItemFromKey key).map fun item =>
        { store := store.set (cString key) item.startDownload, sent := none, result := false }
  | some item =>
      if item.ready then
        some { store := store, sent := none, result := true }
      else if !item.messageWasSent then
        (dumpMessageHeader key item.valueSize item.downloadedSize (outboxBuffer memory)).map
          fun dumped =>
            { store := store.set (cString key) item.sendMessage
              sent := some
                { tag := .RAYPLATFORM_MESSAGE_TAG_DOWNLOAD_OBJECT_PART
                  source := rank
                  destination := source
                  data := messageData dumped.1 dumped.2 }
              result := false }
      else
        some { store := store, sent := none, result := false }

/-- What the two handlers did to the value: the key, the offset and the bytes copied. -/
structure Copied where
  key : List UInt8
  offset : Nat
  bytes : Nat
  deriving DecidableEq, Repr

/-- `call_RAYPLATFORM_MESSAGE_TAG_DOWNLOAD_OBJECT_PART`: the reply that is sent. -/
def call_DOWNLOAD_OBJECT_PART (store : KeyValueStore) (message : StoreMessage ι)
    (memory : Nat → UInt8) : Option (StoreMessage ι × Copied) :=
  (loadMessageHeader message.data).bind fun header =>
    let reply (buffer : List UInt8) (outputPosition : Nat) : StoreMessage ι :=
      { tag := .RAYPLATFORM_MESSAGE_TAG_DOWNLOAD_OBJECT_PART_REPLY
        source := message.destination
        destination := message.source
        data := messageData buffer outputPosition }
    match store.items header.key with
    | none =>
        -- we need a header even when the key is not found
        (dumpMessageHeader header.key 0 header.offset (outboxBuffer memory)).map fun dumped =>
          (reply dumped.1 dumped.2, ⟨header.key, header.offset, 0⟩)
    | some _ =>
        (store.getLocalItemFromKey header.key).bind fun item =>
          (dumpMessageHeader header.key item.valueSize header.offset (outboxBuffer memory)).bind
            fun dumped =>
              match item.value with
              | none => some (reply dumped.1 dumped.2, ⟨header.key, header.offset, 0⟩)
              | some value =>
                  let size := bytesToCopy item.valueSize header.offset dumped.2
                  (memcpy dumped.1 dumped.2 value header.offset size).map fun buffer =>
                    (reply buffer (dumped.2 + size.toNat),
                      ⟨header.key, header.offset, size.toNat⟩)

/-- At offset 0 the memory of the value is allocated. -/
def allocateValue (item : KeyValueStoreItem) (valueLength offset : Nat) (memory : Nat → UInt8) :
    Option KeyValueStoreItem :=
  if offset = 0 ∧ valueLength ≠ 0 then
    (allocateMemory memory valueLength).map fun value =>
      { item with value := some value, valueSize := valueLength }
  else some item

/-- `call_RAYPLATFORM_MESSAGE_TAG_DOWNLOAD_OBJECT_PART_REPLY` -/
def call_DOWNLOAD_OBJECT_PART_REPLY (store : KeyValueStore) (message : StoreMessage ι)
    (memory : Nat → UInt8) : Option (KeyValueStore × Copied) :=
  (loadMessageHeader message.data).bind fun header =>
    (store.getLocalItemFromKey header.key).bind fun item =>
      (allocateValue item header.valueSize header.offset memory).bind fun item =>
        -- if we have 0 bytes to copy, we have nothing left to do
        if item.valueSize = 0 then
          some (store.set (cString header.key) item.receiveMessage, ⟨header.key, header.offset, 0⟩)
        else
          item.value.bind fun value =>
            let size := bytesToCopy header.valueSize header.offset header.position
            (memcpy value header.offset message.data header.position size).map fun value =>
              let item :=
                { item with value := some value, downloadedSize := header.offset + size.toNat }
              (store.set (cString header.key) item.receiveMessage,
                ⟨header.key, header.offset, size.toNat⟩)

end KeyValueStore

end RayPlatform
