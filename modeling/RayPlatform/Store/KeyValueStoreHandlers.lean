import Mathlib.Data.List.TakeWhile
import RayPlatform.Store.KeyValueStore

/-!
# The handlers of KeyValueStore

One lemma for each call and each handler: what it computes from a header and an item, and
what it leaves alone.

* `loadMessageHeader_messageHeader` — the headers are read as they were written;
* `bytesToCopy_eq` — both sides compute the bytes of a part from the same numbers;
* `Downloading`, `Complete` — what an item has of a value;
* `call_DOWNLOAD_OBJECT_PART_spec`, `call_DOWNLOAD_OBJECT_PART_REPLY_spec`, `Pulls` — the
  two handlers and `test`.
-/

namespace RayPlatform

open Lib (readAt writeAt wordBytes bytesWord)

/-! ## Keys and headers -/

/-- A key without NUL of at most 255 bytes, as the items have it. -/
structure IsKey (key : List UInt8) : Prop where
  noNul : cString key = key
  length_le : key.length ≤ 255

theorem cString_ne_zero {bytes : List UInt8} {byte : UInt8} (h : byte ∈ cString bytes) :
    byte ≠ 0 := by
  have hbyte := List.mem_takeWhile_imp h
  simpa using hbyte

theorem cString_cString (bytes : List UInt8) : cString (cString bytes) = cString bytes := by
  refine List.takeWhile_eq_self_iff.mpr fun byte h => ?_
  simpa using cString_ne_zero h

theorem cString_append (key rest : List UInt8) :
    cString (cString key ++ [0] ++ rest) = cString key := by
  have hall : ∀ byte ∈ cString key, (byte != 0) = true := fun byte h => by
    simpa using cString_ne_zero h
  rw [List.append_assoc]
  conv_lhs => rw [cString]
  rw [List.takeWhile_append_of_pos hall]
  simp

theorem length_cString_le (key : List UInt8) : (cString key).length ≤ key.length :=
  (List.takeWhile_prefix _).length_le

theorem isKey_cString {key : List UInt8} (h : key.length ≤ 255) : IsKey (cString key) :=
  ⟨cString_cString key, (length_cString_le key).trans h⟩

theorem length_messageHeader (key : List UInt8) (valueLength offset : Nat) :
    (messageHeader key valueLength offset).length = (cString key).length + 9 := by
  simp [messageHeader]

/-- `dumpMessageHeader` and `loadMessageHeader` are inverse, whatever follows the header. -/
theorem loadMessageHeader_messageHeader (key : List UInt8) {valueLength offset : Nat}
    (hvalue : valueLength < 2 ^ 32) (hoffset : offset < 2 ^ 32) (rest : List UInt8) :
    loadMessageHeader (messageHeader key valueLength offset ++ rest) =
      some ⟨cString key, valueLength, offset, (cString key).length + 9⟩ := by
  have hkey : cString (messageHeader key valueLength offset ++ rest) = cString key := by
    rw [messageHeader, List.append_assoc, List.append_assoc]
    exact cString_append key _
  have hword : ∀ n, n < 2 ^ 32 → bytesWord (wordBytes 4 n) = n := fun n hn => by
    rw [Lib.bytesWord_wordBytes]
    exact Nat.mod_eq_of_lt hn
  have hfirst : readAt (messageHeader key valueLength offset ++ rest) ((cString key).length + 1) 4 =
      some (wordBytes 4 valueLength) := by
    have hread := Lib.readAt_append (cString key ++ [0]) (wordBytes 4 valueLength)
      (wordBytes 4 offset ++ rest)
    simpa [messageHeader] using hread
  have hsecond : readAt (messageHeader key valueLength offset ++ rest) ((cString key).length + 5)
      4 = some (wordBytes 4 offset) := by
    have hread := Lib.readAt_append (cString key ++ [0] ++ wordBytes 4 valueLength)
      (wordBytes 4 offset) rest
    simpa [messageHeader] using hread
  unfold loadMessageHeader
  simp only [hkey, hfirst, hsecond]
  rw [if_pos (by simp [messageHeader])]
  simp [hword _ hvalue, hword _ hoffset]

theorem length_outboxBuffer (memory : Nat → UInt8) : (outboxBuffer memory).length = 4000 := by
  rw [outboxBuffer, List.length_map, List.length_range]
  rfl

/-- Whole units: the bytes that count are sent, and some that follow. -/
theorem messageData_append (data rest : List UInt8) :
    ∃ padding, messageData (data ++ rest) data.length = data ++ padding := by
  unfold messageData
  simp only
  refine ⟨rest.take ((if data.length % 8 ≠ 0 then data.length / 8 + 1 else data.length / 8) * 8 -
    data.length), ?_⟩
  rw [List.take_append, List.take_of_length_le]
  split <;> omega

/-- The room for the value in a message. -/
def partSize (key : List UInt8) : Nat :=
  MAXIMUM_MESSAGE_SIZE_IN_BYTES - (key.length + 9)

theorem IsKey.partSize_pos {key : List UInt8} (h : IsKey key) : 0 < partSize key := by
  have hle := h.length_le
  have hmaximum : MAXIMUM_MESSAGE_SIZE_IN_BYTES = 4000 := rfl
  rw [partSize]
  omega

/-- The two handlers compute the same number of bytes. -/
theorem bytesToCopy_eq {key : List UInt8} (hkey : IsKey key) {valueLength offset : Nat}
    (hle : offset ≤ valueLength) (hlt : valueLength < 2 ^ 31) :
    bytesToCopy valueLength offset (key.length + 9) =
      (min (partSize key) (valueLength - offset) : Nat) := by
  have hlength := hkey.length_le
  have hmaximum : MAXIMUM_MESSAGE_SIZE_IN_BYTES = 4000 := rfl
  have hmod : ((valueLength : Int) - offset).bmod (2 ^ 32) = valueLength - offset :=
    Int.bmod_eq_of_le_mul_two (by omega) (by omega)
  unfold bytesToCopy
  simp only [hmod, partSize, hmaximum]
  split <;> omega

/-! ## The handlers -/

/-- The part of a value from an offset on. -/
def part (key value : List UInt8) (offset : Nat) : List UInt8 :=
  (value.drop offset).take (partSize key)

theorem length_part (key value : List UInt8) (offset : Nat) :
    (part key value offset).length = min (partSize key) (value.length - offset) := by
  rw [part, List.length_take, List.length_drop]

namespace KeyValueStore

variable {ι : Type} {store : KeyValueStore} {key value : List UInt8}

@[simp] theorem items_set (store : KeyValueStore) (key : List UInt8) (item : KeyValueStoreItem) :
    (store.set key item).items key = some item :=
  Function.update_self _ _ _

theorem items_set_of_ne {other : List UInt8} (hne : other ≠ key) (item : KeyValueStoreItem) :
    (store.set key item).items other = store.items other :=
  Function.update_of_ne hne _ _

/-- What a rank answers with for a key: nothing for a missing one. -/
def Serves (store : KeyValueStore) (key value : List UInt8) : Prop :=
  match store.items key with
  | none => value = []
  | some item => item.valueSize = value.length ∧
      (item.value = some value ∨ item.value = none ∧ value = [])

theorem IsKey.getStringKey (h : IsKey key) : getStringKey key = some key := by
  have hle := h.length_le
  rw [KeyValueStore.getStringKey, if_neg (by omega), h.noNul]

theorem getLocalItemFromKey_eq (h : IsKey key) :
    store.getLocalItemFromKey key = store.items key := by
  rw [getLocalItemFromKey, IsKey.getStringKey h]

theorem dumpMessageHeader_spec (hkey : IsKey key) (valueLength offset : Nat)
    (memory : Nat → UInt8) : ∃ rest,
    dumpMessageHeader key valueLength offset (outboxBuffer memory) =
      some (messageHeader key valueLength offset ++ rest, key.length + 9) ∧
    rest.length = partSize key := by
  have hle := hkey.length_le
  have hlength := length_messageHeader key valueLength offset
  rw [hkey.noNul] at hlength
  have hmaximum : MAXIMUM_MESSAGE_SIZE_IN_BYTES = 4000 := rfl
  refine ⟨(outboxBuffer memory).drop (messageHeader key valueLength offset).length, ?_, ?_⟩
  · rw [dumpMessageHeader, Lib.writeAt_zero (by rw [length_outboxBuffer]; omega), Option.map_some,
      hlength]
  · rw [List.length_drop, length_outboxBuffer, hlength, partSize, hmaximum]

/-- The bytes that are sent when the header and a part of the value are in the buffer. -/
theorem messageData_part (hkey : IsKey key) (valueLength offset : Nat) (data rest : List UInt8) :
    ∃ padding, messageData (messageHeader key valueLength offset ++ data ++ rest)
      (key.length + 9 + data.length) = messageHeader key valueLength offset ++ data ++ padding := by
  have hlength := length_messageHeader key valueLength offset
  rw [hkey.noNul] at hlength
  rw [← hlength, ← List.length_append]
  exact messageData_append _ rest

/-- The reply to a request for the bytes from an offset on. -/
theorem call_DOWNLOAD_OBJECT_PART_spec (hkey : IsKey key) {message : StoreMessage ι}
    {valueLength offset : Nat} {rest : List UInt8}
    (hdata : message.data = messageHeader key valueLength offset ++ rest)
    (hvalueLength : valueLength < 2 ^ 32) (hserves : store.Serves key value)
    (hvalue : value.length < 2 ^ 31) (hoffset : offset ≤ value.length) (memory : Nat → UInt8) :
    ∃ padding, store.call_DOWNLOAD_OBJECT_PART message memory =
      some
        ({ tag := .RAYPLATFORM_MESSAGE_TAG_DOWNLOAD_OBJECT_PART_REPLY
           source := message.destination
           destination := message.source
           data := messageHeader key value.length offset ++ part key value offset ++ padding },
          ⟨key, offset, min (partSize key) (value.length - offset)⟩) := by
  have hload := loadMessageHeader_messageHeader key hvalueLength
    (by omega : offset < 2 ^ 32) rest
  rw [hkey.noNul] at hload
  have hnothing : value = [] → part key value offset = [] := by
    rintro rfl
    simp [part]
  unfold call_DOWNLOAD_OBJECT_PART
  rw [hdata, hload, Option.bind_some]
  unfold Serves at hserves
  cases hitem : store.items key with
  | none =>
      rw [hitem] at hserves
      subst hserves
      obtain ⟨buffer, hdump, -⟩ := dumpMessageHeader_spec hkey 0 offset memory
      obtain ⟨padding, hpadding⟩ := messageData_part hkey 0 offset [] buffer
      refine ⟨padding, ?_⟩
      simp only [List.length_nil, Nat.add_zero, List.append_nil] at hpadding
      simp [hdump, hpadding, hnothing]
  | some item =>
      rw [hitem] at hserves
      obtain ⟨hsize, hbytes⟩ := hserves
      obtain ⟨buffer, hdump, hbuffer⟩ := dumpMessageHeader_spec hkey value.length offset memory
      simp only [hitem, getLocalItemFromKey_eq hkey, Option.bind_some, hsize, hdump]
      rcases hbytes with hbytes | ⟨hbytes, rfl⟩
      · have hcopy := bytesToCopy_eq hkey hoffset hvalue
        have hlength := length_part key value offset
        have hread : readAt value offset (min (partSize key) (value.length - offset)) =
            some (part key value offset) := by
          rw [readAt, if_pos (by omega), part, ← List.length_drop, List.take_eq_take_min]
          simp
        have hheader := length_messageHeader key value.length offset
        rw [hkey.noNul] at hheader
        have hmemcpy : memcpy (messageHeader key value.length offset ++ buffer) (key.length + 9)
            value offset (min (partSize key) (value.length - offset) : Nat) =
            some (messageHeader key value.length offset ++ part key value offset ++
              buffer.drop (part key value offset).length) := by
          rw [memcpy, if_neg (by omega), Int.toNat_natCast, hread, Option.bind_some, ← hheader]
          exact Lib.writeAt_append (by omega)
        obtain ⟨padding, hpadding⟩ := messageData_part hkey value.length offset
          (part key value offset) (buffer.drop (part key value offset).length)
        refine ⟨padding, ?_⟩
        rw [hlength] at hpadding
        simp only [hbytes, hcopy, hmemcpy, Option.map_some, Int.toNat_natCast, hlength] at hpadding ⊢
        rw [hpadding]
      · obtain ⟨padding, hpadding⟩ := messageData_part hkey 0 offset [] buffer
        refine ⟨padding, ?_⟩
        simp only [List.length_nil, Nat.add_zero, List.append_nil] at hpadding
        simp [hbytes, hpadding, hnothing]

/-- An item that has the first `offset` bytes of a value. -/
structure Downloading (item : KeyValueStoreItem) (value : List UInt8) (offset : Nat) : Prop where
  notReady : item.ready = false
  downloaded : item.downloadedSize = offset
  fresh : offset = 0 → item.value = none ∧ item.valueSize = 0
  begun : 0 < offset → offset < value.length ∧ item.valueSize = value.length ∧
    ∃ buffer, item.value = some buffer ∧ buffer.length = value.length ∧
      buffer.take offset = value.take offset

structure Complete (item : KeyValueStoreItem) (value : List UInt8) : Prop where
  ready : item.ready = true
  size : item.valueSize = value.length
  bytes : item.value = some value ∨ item.value = none ∧ value = []

/-- What the handler of the reply makes of an item. -/
def Advanced (key value : List UInt8) (offset : Nat) (item : KeyValueStoreItem) : Prop :=
  if offset + min (partSize key) (value.length - offset) = value.length then
    Complete item value
  else
    Downloading item value (offset + min (partSize key) (value.length - offset))

theorem Complete.serves {item : KeyValueStoreItem} (h : Complete item value)
    (hitem : store.items key = some item) : store.Serves key value := by
  unfold Serves
  rw [hitem]
  exact ⟨h.size, h.bytes⟩

/-- The memory of the value, once it is allocated. -/
theorem allocateValue_spec {item : KeyValueStoreItem} {offset : Nat}
    (hdown : Downloading item value offset) (hpos : 0 < value.length)
    (hmax : value.length ≤ 33554432) (memory : Nat → UInt8) :
    ∃ buffer, allocateValue item value.length offset memory =
        some { item with value := some buffer, valueSize := value.length } ∧
      buffer.length = value.length ∧ buffer.take offset = value.take offset := by
  by_cases hzero : offset = 0
  · subst hzero
    refine ⟨(List.range value.length).map memory, ?_, by simp, by simp⟩
    rw [allocateValue, if_pos ⟨rfl, by omega⟩, allocateMemory, if_pos hmax]
    rfl
  · obtain ⟨-, hsize, buffer, hbuffer, hlength, htake⟩ := hdown.begun (by omega)
    refine ⟨buffer, ?_, hlength, htake⟩
    rw [allocateValue, if_neg (fun h => hzero h.1), ← hbuffer, ← hsize]

/-- The reply is copied after the bytes that the item has. -/
theorem call_DOWNLOAD_OBJECT_PART_REPLY_spec (hkey : IsKey key) {message : StoreMessage ι}
    {item : KeyValueStoreItem} {offset : Nat} {padding : List UInt8}
    (hdata : message.data =
      messageHeader key value.length offset ++ part key value offset ++ padding)
    (hitem : store.items key = some item) (hdown : Downloading item value offset)
    (hmax : value.length ≤ 33554432) (hoffset : offset ≤ value.length) (memory : Nat → UInt8) :
    ∃ next, store.call_DOWNLOAD_OBJECT_PART_REPLY message memory =
        some (store.set key next,
          ⟨key, offset, min (partSize key) (value.length - offset)⟩) ∧
      next.messageWasSent = false ∧ Advanced key value offset next := by
  have hload := loadMessageHeader_messageHeader key (by omega : value.length < 2 ^ 32)
    (by omega : offset < 2 ^ 32) (part key value offset ++ padding)
  rw [hkey.noNul, ← List.append_assoc] at hload
  unfold call_DOWNLOAD_OBJECT_PART_REPLY
  simp only [hdata, hload, Option.bind_some, getLocalItemFromKey_eq hkey, hitem, hkey.noNul]
  by_cases hempty : value.length = 0
  · -- an empty value: the item is as it was registered
    have hzero : offset = 0 := by omega
    subst hzero
    obtain ⟨hvalue, hsize⟩ := hdown.fresh rfl
    have hallocate : allocateValue item value.length 0 memory = some item :=
      if_neg fun h => h.2 hempty
    have hreceive : item.receiveMessage = { item with messageWasSent := false, ready := true } :=
      if_pos (hdown.downloaded.trans hsize.symm)
    refine ⟨item.receiveMessage, ?_, by rw [hreceive], ?_⟩
    · simp only [hallocate, Option.bind_some, hsize, if_true]
      rw [hempty, Nat.zero_sub, Nat.min_zero]
    · rw [Advanced, if_pos (by omega), hreceive]
      exact ⟨rfl, hsize.trans hempty.symm, .inr ⟨hvalue, List.eq_nil_of_length_eq_zero hempty⟩⟩
  · obtain ⟨buffer, hallocate, hbuffer, htake⟩ :=
      allocateValue_spec hdown (Nat.pos_of_ne_zero hempty) hmax memory
    have hlength := length_part key value offset
    have hheader := length_messageHeader key value.length offset
    rw [hkey.noNul] at hheader
    have hread := Lib.readAt_append (messageHeader key value.length offset)
      (part key value offset) padding
    obtain ⟨written, hwrite⟩ : ∃ written, writeAt buffer offset (part key value offset) =
        some written := ⟨_, if_pos (by omega)⟩
    have hwritten := Lib.length_writeAt hwrite
    have hfirst : written.take (offset + min (partSize key) (value.length - offset)) =
        value.take (offset + min (partSize key) (value.length - offset)) := by
      have hpart : part key value offset =
          (value.drop offset).take (min (partSize key) (value.length - offset)) := by
        rw [part, List.take_eq_take_min, List.length_drop]
      rw [← hlength, Lib.take_writeAt hwrite, htake, hlength, ← Lib.take_append_take_drop, ← hpart]
    have hmemcpy : memcpy buffer offset message.data (key.length + 9)
        (min (partSize key) (value.length - offset) : Nat) = some written := by
      rw [memcpy, if_neg (by omega), Int.toNat_natCast, hdata, ← hheader, ← hlength, hread,
        Option.bind_some, hwrite]
    rw [hdata] at hmemcpy
    simp only [hallocate, Option.bind_some, hempty, if_false,
      bytesToCopy_eq hkey hoffset (by omega : value.length < 2 ^ 31), hmemcpy, Option.map_some,
      Int.toNat_natCast]
    refine ⟨_, rfl, ?_, ?_⟩
    · unfold KeyValueStoreItem.receiveMessage
      split <;> rfl
    · unfold Advanced
      split
      · next hend =>
          rw [hend, List.take_length, ← hbuffer, ← hwritten, List.take_length] at hfirst
          rw [KeyValueStoreItem.receiveMessage, if_pos hend]
          exact ⟨rfl, rfl, .inl (by rw [hfirst])⟩
      · next hmore =>
          have hpart := hkey.partSize_pos
          rw [KeyValueStoreItem.receiveMessage, if_neg hmore]
          exact ⟨hdown.notReady, rfl, fun hzero => by omega,
            fun _ => ⟨by omega, rfl, written, rfl, by omega, hfirst⟩⟩

/-- Memory is allocated up to the size of a chunk. -/
theorem call_DOWNLOAD_OBJECT_PART_REPLY_too_large (hkey : IsKey key) {message : StoreMessage ι}
    {item : KeyValueStoreItem} {padding : List UInt8}
    (hdata : message.data = messageHeader key value.length 0 ++ part key value 0 ++ padding)
    (hitem : store.items key = some item) (hint : value.length < 2 ^ 31)
    (hlarge : 33554432 < value.length) (memory : Nat → UInt8) :
    store.call_DOWNLOAD_OBJECT_PART_REPLY message memory = none := by
  have hload := loadMessageHeader_messageHeader key (by omega : value.length < 2 ^ 32)
    (by omega : 0 < 2 ^ 32) (part key value 0 ++ padding)
  rw [hkey.noNul, ← List.append_assoc] at hload
  have hallocate : allocateValue item value.length 0 memory = none := by
    rw [allocateValue, if_pos ⟨rfl, by omega⟩, allocateMemory, if_neg (by omega)]
    rfl
  unfold call_DOWNLOAD_OBJECT_PART_REPLY
  simp only [hdata, hload, Option.bind_some, getLocalItemFromKey_eq hkey, hitem, hallocate,
    Option.bind_none]

/-- What the application reads. -/
theorem Complete.getLocalKey {item : KeyValueStoreItem} (h : Complete item value)
    (hkey : IsKey key) (hitem : store.items key = some item) :
    ∃ bytes, store.getLocalKey key = some (bytes, value.length) ∧ bytes.getD [] = value := by
  refine ⟨item.value, ?_, ?_⟩
  · rw [KeyValueStore.getLocalKey, IsKey.getStringKey hkey]
    simp only [hitem, h.ready, if_true, h.size]
  · rcases h.bytes with hbytes | ⟨hbytes, rfl⟩
    · rw [hbytes]
      rfl
    · rw [hbytes]
      rfl

/-! ## The calls of the application -/

/-- What a call to `test` can do: start the download, find the item ready, ask for the next
part, or wait. -/
inductive Pulls (store : KeyValueStore) (rank : ι) (key : List UInt8) (source : ι) :
    Pulled ι → Prop
  | start {item : KeyValueStoreItem} : store.items (cString key) = none →
      (∀ value, Downloading item value 0) → item.messageWasSent = false →
      Pulls store rank key source
        { store := store.set (cString key) item, sent := none, result := false }
  | ready {item : KeyValueStoreItem} : store.items (cString key) = some item →
      item.ready = true →
      Pulls store rank key source { store := store, sent := none, result := true }
  | request {item : KeyValueStoreItem} {rest : List UInt8} :
      store.items (cString key) = some item → item.ready = false → item.messageWasSent = false →
      Pulls store rank key source
        { store := store.set (cString key) item.sendMessage
          sent := some
            { tag := .RAYPLATFORM_MESSAGE_TAG_DOWNLOAD_OBJECT_PART
              source := rank
              destination := source
              data := messageHeader key item.valueSize item.downloadedSize ++ rest }
          result := false }
  | wait {item : KeyValueStoreItem} : store.items (cString key) = some item →
      item.ready = false → item.messageWasSent = true →
      Pulls store rank key source { store := store, sent := none, result := false }

theorem messageHeader_cString (key : List UInt8) (valueLength offset : Nat) :
    messageHeader (cString key) valueLength offset = messageHeader key valueLength offset := by
  rw [messageHeader, cString_cString, messageHeader]

theorem pullRemoteKeyWithLength_pulls (rank : ι) (hkey : key.length ≤ 255) (source : ι)
    (memory : Nat → UInt8) : ∃ pulled,
    store.pullRemoteKeyWithLength rank key source memory = some pulled ∧
      Pulls store rank key source pulled := by
  have hstring : getStringKey key = some (cString key) := if_neg (by omega)
  have hitem : ∀ store : KeyValueStore,
      store.getLocalItemFromKey key = store.items (cString key) := fun store => by
    rw [getLocalItemFromKey, hstring]
  unfold pullRemoteKeyWithLength
  rw [hitem]
  cases hcases : store.items (cString key) with
  | none =>
      have hinsert : (store.insertLocalKey key none 0).1 =
          store.set (cString key) (.constructor none 0) := by
        rw [insertLocalKey, hstring]
        simp only [hcases]
      let item := (KeyValueStoreItem.constructor none 0).startDownload
      refine ⟨{ store := store.set (cString key) item, sent := none, result := false }, ?_,
        .start hcases ?_ rfl⟩
      · simp only [hinsert, hitem, items_set, Option.map_some]
        refine congrArg some ?_
        have hset : (store.set (cString key) (.constructor none 0)).set (cString key) item =
            store.set (cString key) item := by
          simp [set]
        rw [← hset]
      · exact fun value => ⟨rfl, rfl, fun _ => ⟨rfl, rfl⟩, fun h => absurd h (Nat.lt_irrefl 0)⟩
  | some item =>
      cases hready : item.ready with
      | true => exact ⟨_, by simp [hready], .ready hcases hready⟩
      | false =>
          cases hsent : item.messageWasSent with
          | true => exact ⟨_, by simp [hready, hsent], .wait hcases hready hsent⟩
          | false =>
              obtain ⟨buffer, hdump, -⟩ := dumpMessageHeader_spec (isKey_cString hkey)
                item.valueSize item.downloadedSize memory
              obtain ⟨rest, hrest⟩ := messageData_part (isKey_cString hkey) item.valueSize
                item.downloadedSize [] buffer
              have hsame : dumpMessageHeader key item.valueSize item.downloadedSize
                  (outboxBuffer memory) = dumpMessageHeader (cString key) item.valueSize
                    item.downloadedSize (outboxBuffer memory) := by
                rw [dumpMessageHeader, ← messageHeader_cString]
                rfl
              simp only [List.append_nil, List.length_nil, Nat.add_zero,
                messageHeader_cString] at hrest
              let pulled : Pulled ι :=
                { store := store.set (cString key) item.sendMessage
                  sent := some
                    { tag := .RAYPLATFORM_MESSAGE_TAG_DOWNLOAD_OBJECT_PART
                      source := rank
                      destination := source
                      data := messageHeader key item.valueSize item.downloadedSize ++ rest }
                  result := false }
              refine ⟨pulled, ?_, .request hcases hready hsent⟩
              simp [pulled, hready, hsent, hsame, hdump, hrest, messageHeader_cString]

/-- A key that is too long is a null pointer dereferenced. -/
theorem pulls_of_some {rank source : ι} {memory : Nat → UInt8} {pulled : Pulled ι}
    (h : store.pullRemoteKeyWithLength rank key source memory = some pulled) :
    key.length ≤ 255 ∧ Pulls store rank key source pulled := by
  by_cases hkey : key.length ≤ 255
  · obtain ⟨other, hpull, hpulls⟩ := pullRemoteKeyWithLength_pulls rank hkey source memory
    rw [hpull] at h
    cases h
    exact ⟨hkey, hpulls⟩
  · have hstring : getStringKey key = none := if_pos (by omega)
    have hnone : ∀ store : KeyValueStore, store.getLocalItemFromKey key = none := fun store => by
      rw [getLocalItemFromKey, hstring]
    unfold pullRemoteKeyWithLength at h
    simp [hnone] at h

/-! ## The key of a message stays the same -/

theorem cString_messageData {data rest : List UInt8} {valueLength offset n : Nat}
    (hn : (messageHeader key valueLength offset).length ≤ n)
    (hdata : data = messageHeader key valueLength offset ++ rest) :
    cString (messageData data n) = cString key := by
  obtain ⟨tail, htail⟩ : ∃ tail, messageData data n =
      messageHeader key valueLength offset ++ tail := by
    unfold messageData
    simp only [hdata, List.take_append]
    rw [List.take_of_length_le (by split <;> omega)]
    exact ⟨_, rfl⟩
  rw [htail, messageHeader, List.append_assoc, List.append_assoc]
  exact cString_append key _

theorem loadMessageHeader_key {data : List UInt8} {header : LoadedHeader}
    (h : loadMessageHeader data = some header) : header.key = cString data := by
  unfold loadMessageHeader at h
  simp only at h
  split at h
  · obtain ⟨_, -, h⟩ := Option.bind_eq_some_iff.mp h
    obtain ⟨_, -, rfl⟩ := Option.map_eq_some_iff.mp h
    rfl
  · cases h

theorem dumpMessageHeader_eq {valueLength offset : Nat} {buffer : List UInt8}
    {dumped : List UInt8 × Nat}
    (h : dumpMessageHeader key valueLength offset buffer = some dumped) :
    (∃ rest, dumped.1 = messageHeader key valueLength offset ++ rest) ∧
      dumped.2 = (messageHeader key valueLength offset).length := by
  obtain ⟨written, hwrite, rfl⟩ := Option.map_eq_some_iff.mp h
  unfold writeAt at hwrite
  split at hwrite
  · cases hwrite
    exact ⟨⟨_, rfl⟩, rfl⟩
  · cases hwrite

/-- A reply goes to the rank that asked, about the key it asked for. -/
structure Answers (message : StoreMessage ι) (answer : StoreMessage ι × Copied) : Prop where
  tag : answer.1.tag = .RAYPLATFORM_MESSAGE_TAG_DOWNLOAD_OBJECT_PART_REPLY
  destination : answer.1.destination = message.source
  key : cString answer.1.data = cString message.data
  copied : answer.2.key = cString message.data

theorem call_DOWNLOAD_OBJECT_PART_answers {message : StoreMessage ι} {memory : Nat → UInt8}
    {answer : StoreMessage ι × Copied}
    (h : store.call_DOWNLOAD_OBJECT_PART message memory = some answer) :
    Answers message answer := by
  unfold call_DOWNLOAD_OBJECT_PART at h
  obtain ⟨header, hload, h⟩ := Option.bind_eq_some_iff.mp h
  have hheader := loadMessageHeader_key hload
  have hkey : cString header.key = cString message.data := by
    rw [hheader, cString_cString]
  simp only at h
  split at h
  · obtain ⟨dumped, hdump, rfl⟩ := Option.map_eq_some_iff.mp h
    obtain ⟨⟨rest, hrest⟩, hposition⟩ := dumpMessageHeader_eq hdump
    exact ⟨rfl, rfl, (cString_messageData (Nat.le_of_eq hposition.symm) hrest).trans hkey, hheader⟩
  · obtain ⟨item, -, h⟩ := Option.bind_eq_some_iff.mp h
    obtain ⟨dumped, hdump, h⟩ := Option.bind_eq_some_iff.mp h
    obtain ⟨⟨rest, hrest⟩, hposition⟩ := dumpMessageHeader_eq hdump
    split at h
    · cases h
      exact ⟨rfl, rfl, (cString_messageData (Nat.le_of_eq hposition.symm) hrest).trans hkey, hheader⟩
    · obtain ⟨buffer, hcopy, rfl⟩ := Option.map_eq_some_iff.mp h
      -- the value is copied after the header
      obtain ⟨tail, htail⟩ : ∃ tail,
          buffer = messageHeader header.key item.valueSize header.offset ++ tail := by
        unfold memcpy at hcopy
        split at hcopy
        · cases hcopy
        · obtain ⟨data, -, hwrite⟩ := Option.bind_eq_some_iff.mp hcopy
          unfold writeAt at hwrite
          split at hwrite
          · cases hwrite
            rw [hrest, hposition, List.take_left, List.append_assoc]
            exact ⟨_, rfl⟩
          · cases hwrite
      refine ⟨rfl, rfl, (cString_messageData ?_ htail).trans hkey, hheader⟩
      rw [hposition]
      exact Nat.le_add_right _ _

/-- A reply changes the item of its key and no other. -/
theorem call_DOWNLOAD_OBJECT_PART_REPLY_frame {message : StoreMessage ι} {memory : Nat → UInt8}
    {result : KeyValueStore × Copied}
    (h : store.call_DOWNLOAD_OBJECT_PART_REPLY message memory = some result) :
    (∃ item, result.1 = store.set (cString message.data) item) ∧
      result.2.key = cString message.data := by
  unfold call_DOWNLOAD_OBJECT_PART_REPLY at h
  obtain ⟨header, hload, h⟩ := Option.bind_eq_some_iff.mp h
  have hheader := loadMessageHeader_key hload
  obtain ⟨_, -, h⟩ := Option.bind_eq_some_iff.mp h
  obtain ⟨item, -, h⟩ := Option.bind_eq_some_iff.mp h
  split at h
  · cases h
    rw [hheader, cString_cString]
    exact ⟨⟨_, rfl⟩, rfl⟩
  · obtain ⟨value, -, h⟩ := Option.bind_eq_some_iff.mp h
    obtain ⟨_, -, rfl⟩ := Option.map_eq_some_iff.mp h
    rw [hheader, cString_cString]
    exact ⟨⟨_, rfl⟩, rfl⟩

end KeyValueStore

end RayPlatform
