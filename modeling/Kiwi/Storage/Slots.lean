import Kiwi.Bytes

/-!
# Slots

Keys are spread over the instances of a storage by a checksum: `key_to_slot_id` is CRC16-ARC, and
the instance is the slot modulo the number of instances.

The checksum comes from a library. It is written out here only so that runs on concrete keys can be
evaluated: no proof about all keys looks into `keyToSlotId`, so all of them hold for any function in
its place.
-/

namespace Kiwi

/-- One step of the checksum: a bit is shifted out, and the reflected polynomial `0x8005` is added
when that bit is one. -/
def crc16Bit (crc : UInt16) : UInt16 :=
  if crc &&& 1 = 1 then (crc >>> 1) ^^^ 0xA001 else crc >>> 1

/-- The checksum after one more byte. -/
def crc16Byte (crc : UInt16) (b : UInt8) : UInt16 := crc16Bit^[8] (crc ^^^ b.toUInt16)

def keyToSlotId (key : Bytes) : ℕ := (key.foldl crc16Byte 0).toNat

-- the check value of CRC16-ARC is that of the text 123456789
example : keyToSlotId [0x31, 0x32, 0x33, 0x34, 0x35, 0x36, 0x37, 0x38, 0x39] = 0xBB3D := by
  decide +kernel

/-- `SlotIndexer::get_instance_id`. -/
def getInstanceId (instanceNum slotId : ℕ) : ℕ := slotId % instanceNum

/-- The instance of a key. -/
def instanceOf (instanceNum : ℕ) (key : Bytes) : ℕ := getInstanceId instanceNum (keyToSlotId key)

theorem instanceOf_lt {instanceNum : ℕ} (h : 0 < instanceNum) (key : Bytes) :
    instanceOf instanceNum key < instanceNum := Nat.mod_lt _ h

end Kiwi
