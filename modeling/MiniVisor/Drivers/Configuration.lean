import MiniVisor.Lib.Slice

/-!
# The configuration of a USB mass-storage device

`parse_mass_storage_configuration` of `xhci.rs` over the bytes that a device sends. A read behind
their end is a fault and the loop takes fuel.

`InMassStorage` and `BulkEndpointAt` say what the bytes mean, without the function: an offset on the
chain of descriptors below an interface of the right class, and a bulk endpoint at an offset.
`parse_sound` says that the function always returns, and that what it returns are such endpoints.
-/

set_option autoImplicit false

namespace MiniVisor.Drivers.Configuration

open MiniVisor.Lib

def usbDtInterface : UInt8 := 4
def usbDtEndpoint : UInt8 := 5
def usbDtSsEpCompanion : UInt8 := 0x30
def usbEndpointXferBulk : UInt8 := 2
def usbEndpointDirMask : UInt8 := 0x80

inductive UsbSpeed where
  | low | full | high | super
  deriving DecidableEq, Repr

structure MassStorageConfiguration where
  bulkInEp : UInt8
  bulkOutEp : UInt8
  maxPacketIn : Nat
  maxPacketOut : Nat
  maxBurstIn : UInt8
  maxBurstOut : UInt8
  maxEpIndex : Nat
  deriving DecidableEq, Repr

def endpointIndex (endpointAddress : UInt8) : Nat :=
  if endpointAddress &&& usbEndpointDirMask ≠ 0 then (endpointAddress &&& 0x0F).toNat * 2
  else (endpointAddress &&& 0x0F).toNat * 2 - 1

def parseSuperspeedEndpointCompanion (descriptor : List UInt8) (endpointOffset : Nat) :
    Except Fault UInt8 := do
  let length ← index descriptor endpointOffset
  let companionOffset := endpointOffset + length.toNat
  if companionOffset + 2 > descriptor.length then return 0
  else
    let companionLength ← index descriptor companionOffset
    let companionType ← index descriptor (companionOffset + 1)
    if companionType ≠ usbDtSsEpCompanion then return 0
    else if companionLength.toNat < 6 ∨
        companionOffset + companionLength.toNat > descriptor.length then return 0
    else index descriptor (companionOffset + 2)

/-- Only a SuperSpeed endpoint has a companion. -/
def maxBurstOf (descriptor : List UInt8) (speed : UsbSpeed) (offset : Nat) : Except Fault UInt8 :=
  if speed = .super then parseSuperspeedEndpointCompanion descriptor offset else .ok 0

/-- The variables of the loop. -/
structure Parsed where
  activeMassStorage : Bool
  bulkIn : Option UInt8
  bulkOut : Option UInt8
  maxPacketIn : Nat
  maxPacketOut : Nat
  maxBurstIn : UInt8
  maxBurstOut : UInt8
  maxEpIndex : Nat

namespace Parsed

def new : Parsed := ⟨false, none, none, 0, 0, 0, 0, 0⟩

/-- An interface descriptor: is it of the class 08/06/50? -/
def parseInterface (descriptor : List UInt8) (offset : Nat) (s : Parsed) : Except Fault Parsed := do
  let interfaceClass ← index descriptor (offset + 5)
  if interfaceClass ≠ 0x08 then return { s with activeMassStorage := false }
  else
    let subclass ← index descriptor (offset + 6)
    if subclass ≠ 0x06 then return { s with activeMassStorage := false }
    else
      let protocol ← index descriptor (offset + 7)
      return { s with activeMassStorage := protocol == 0x50 }

/-- A bulk endpoint is noted, by its direction. -/
def note (epAddress : UInt8) (maxPacket : Nat) (maxBurst : UInt8) (s : Parsed) : Parsed :=
  if epAddress &&& usbEndpointDirMask ≠ 0 then
    { s with
      maxEpIndex := max s.maxEpIndex (endpointIndex epAddress)
      bulkIn := some epAddress, maxPacketIn := maxPacket, maxBurstIn := maxBurst }
  else
    { s with
      maxEpIndex := max s.maxEpIndex (endpointIndex epAddress)
      bulkOut := some epAddress, maxPacketOut := maxPacket, maxBurstOut := maxBurst }

def parseEndpoint (descriptor : List UInt8) (speed : UsbSpeed) (offset : Nat) (s : Parsed) :
    Except Fault Parsed := do
  let epAddress ← index descriptor (offset + 2)
  let attributes ← index descriptor (offset + 3)
  if attributes &&& 0x3 = usbEndpointXferBulk then
    let low ← index descriptor (offset + 4)
    let high ← index descriptor (offset + 5)
    let maxBurst ← maxBurstOf descriptor speed offset
    return s.note epAddress (low.toNat + 256 * high.toNat) maxBurst
  else return s

/-- The body of the loop, for a descriptor that fits. -/
def parseDescriptor (descriptor : List UInt8) (speed : UsbSpeed) (offset length : Nat)
    (s : Parsed) : Except Fault Parsed := do
  let kind ← index descriptor (offset + 1)
  if kind = usbDtInterface ∧ 9 ≤ length then s.parseInterface descriptor offset
  else if kind = usbDtEndpoint ∧ s.activeMassStorage = true ∧ 7 ≤ length then
    s.parseEndpoint descriptor speed offset
  else return s

def parseLoop (descriptor : List UInt8) (speed : UsbSpeed) : Nat → Nat → Parsed →
    Except Fault Parsed
  | 0, _, _ => .error .outOfFuel
  | fuel + 1, offset, s =>
    if offset + 2 ≤ descriptor.length then do
      let length ← index descriptor offset
      if length.toNat = 0 ∨ offset + length.toNat > descriptor.length then return s
      else
        let s ← s.parseDescriptor descriptor speed offset length.toNat
        parseLoop descriptor speed fuel (offset + length.toNat) s
    else return s

/-- The result, if both endpoints were found. -/
def result (s : Parsed) : Option MassStorageConfiguration := do
  let bulkIn ← s.bulkIn
  let bulkOut ← s.bulkOut
  return ⟨bulkIn, bulkOut, s.maxPacketIn, s.maxPacketOut, s.maxBurstIn, s.maxBurstOut,
    s.maxEpIndex⟩

end Parsed

def parseMassStorageConfiguration (descriptor : List UInt8) (speed : UsbSpeed) :
    Except Fault (Option MassStorageConfiguration) :=
  (Parsed.parseLoop descriptor speed (descriptor.length + 1) 0 .new).map Parsed.result

/-! ## What the bytes mean -/

section Meaning

variable (bytes : List UInt8)

/-- The byte at an offset. -/
def byteAt (offset : Nat) : UInt8 := bytes.getD offset default

/-- The first byte of a descriptor is its length. -/
def lengthAt (offset : Nat) : Nat := (byteAt bytes offset).toNat

/-- There is a descriptor at the offset, with all its bytes. -/
structure Fits (offset : Nat) : Prop where
  header : offset + 2 ≤ bytes.length
  nonempty : lengthAt bytes offset ≠ 0
  inside : offset + lengthAt bytes offset ≤ bytes.length

/-- An interface descriptor with all the fields of one. -/
def InterfaceAt (offset : Nat) : Prop :=
  byteAt bytes (offset + 1) = usbDtInterface ∧ 9 ≤ lengthAt bytes offset

/-- An interface descriptor of the class 08/06/50. -/
def MassStorageAt (offset : Nat) : Prop :=
  InterfaceAt bytes offset ∧ byteAt bytes (offset + 5) = 0x08 ∧
    byteAt bytes (offset + 6) = 0x06 ∧ byteAt bytes (offset + 7) = 0x50

/-- The chain of descriptors from one offset to another, over descriptors with a property. -/
inductive Linked (P : Nat → Prop) (start : Nat) : Nat → Prop where
  | refl : Linked P start start
  | next {offset : Nat} (h : Linked P start offset) (hfits : Fits bytes offset) (hP : P offset) :
      Linked P start (offset + lengthAt bytes offset)

/-- The last interface descriptor in front of an offset on the chain is of the class 08/06/50. -/
def InMassStorage (offset : Nat) : Prop :=
  ∃ start, Linked bytes (fun _ => True) 0 start ∧ Fits bytes start ∧ MassStorageAt bytes start ∧
    Linked bytes (fun o => ¬InterfaceAt bytes o) (start + lengthAt bytes start) offset

/-- A bulk endpoint descriptor with its address and packet size. -/
structure BulkEndpointAt (offset : Nat) (address : UInt8) (maxPacket : Nat) : Prop where
  fits : Fits bytes offset
  kind : byteAt bytes (offset + 1) = usbDtEndpoint
  length : 7 ≤ lengthAt bytes offset
  address_eq : byteAt bytes (offset + 2) = address
  bulk : byteAt bytes (offset + 3) &&& 0x3 = usbEndpointXferBulk
  maxPacket_eq : (byteAt bytes (offset + 4)).toNat + 256 * (byteAt bytes (offset + 5)).toNat =
    maxPacket

/-- What is noted of an endpoint is true of a descriptor below the right interface. -/
def Found (address : UInt8) (maxPacket maxEpIndex : Nat) : Prop :=
  (∃ offset, InMassStorage bytes offset ∧ BulkEndpointAt bytes offset address maxPacket) ∧
    endpointIndex address ≤ maxEpIndex

/-- The invariant of the loop. -/
structure Sound (offset : Nat) (s : Parsed) : Prop where
  linked : Linked bytes (fun _ => True) 0 offset
  active : s.activeMassStorage = true → InMassStorage bytes offset
  bulkIn : ∀ address, s.bulkIn = some address → address &&& usbEndpointDirMask ≠ 0 ∧
    Found bytes address s.maxPacketIn s.maxEpIndex
  bulkOut : ∀ address, s.bulkOut = some address → address &&& usbEndpointDirMask = 0 ∧
    Found bytes address s.maxPacketOut s.maxEpIndex

end Meaning

variable {bytes : List UInt8} {offset : Nat} {s : Parsed}

theorem sound_new (bytes : List UInt8) : Sound bytes 0 .new :=
  ⟨.refl, fun h => (nomatch h), fun _ h => (nomatch h), fun _ h => (nomatch h)⟩

theorem index_eq {i : Nat} (h : i < bytes.length) : index bytes i = .ok (byteAt bytes i) :=
  index_of_lt h

theorem Found.mono {address : UInt8} {maxPacket maxEpIndex more : Nat}
    (h : Found bytes address maxPacket maxEpIndex) (hle : maxEpIndex ≤ more) :
    Found bytes address maxPacket more := ⟨h.1, h.2.trans hle⟩

/-- The chain does not leave the bytes. -/
theorem Linked.le {P : Nat → Prop} {start : Nat} (h : Linked bytes P start offset)
    (hstart : start ≤ bytes.length) : offset ≤ bytes.length := by
  induction h with
  | refl => exact hstart
  | next _ hfits _ _ => exact hfits.inside

/-- A descriptor that is no interface is passed. -/
theorem Sound.pass (h : Sound bytes offset s) (hfits : Fits bytes offset)
    (hother : ¬InterfaceAt bytes offset) : Sound bytes (offset + lengthAt bytes offset) s := by
  refine ⟨h.linked.next hfits trivial, fun hactive => ?_, h.bulkIn, h.bulkOut⟩
  obtain ⟨start, hlinked, hstart, hclass, hbelow⟩ := h.active hactive
  exact ⟨start, hlinked, hstart, hclass, hbelow.next hfits hother⟩

/-- An endpoint is noted that is there. -/
theorem Sound.note {address maxBurst : UInt8} {maxPacket : Nat} (h : Sound bytes offset s)
    (hthere : ∃ o, InMassStorage bytes o ∧ BulkEndpointAt bytes o address maxPacket) :
    Sound bytes offset (s.note address maxPacket maxBurst) := by
  have hold : s.maxEpIndex ≤ max s.maxEpIndex (endpointIndex address) := Nat.le_max_left _ _
  have hnew : Found bytes address maxPacket (max s.maxEpIndex (endpointIndex address)) :=
    ⟨hthere, Nat.le_max_right _ _⟩
  unfold Parsed.note
  split
  · next hdir =>
    refine ⟨h.linked, h.active, ?_, fun a ha => ⟨(h.bulkOut a ha).1, (h.bulkOut a ha).2.mono hold⟩⟩
    rintro a ⟨⟩
    exact ⟨hdir, hnew⟩
  · next hdir =>
    refine ⟨h.linked, h.active, fun a ha => ⟨(h.bulkIn a ha).1, (h.bulkIn a ha).2.mono hold⟩, ?_⟩
    rintro a ⟨⟩
    exact ⟨not_not.1 hdir, hnew⟩

theorem parseInterface_sound (h : Sound bytes offset s) (hfits : Fits bytes offset)
    (hinterface : InterfaceAt bytes offset) :
    ∃ s', s.parseInterface bytes offset = .ok s' ∧
      Sound bytes (offset + lengthAt bytes offset) s' := by
  have hlength := hinterface.2
  have hinside := hfits.inside
  have hstep : ∀ active, (active = true → MassStorageAt bytes offset) →
      Sound bytes (offset + lengthAt bytes offset) { s with activeMassStorage := active } :=
    fun active hactive => ⟨h.linked.next hfits trivial,
      fun htrue => ⟨offset, h.linked, hfits, hactive htrue, .refl⟩, h.bulkIn, h.bulkOut⟩
  have hno : false = true → MassStorageAt bytes offset := fun h => (nomatch h)
  unfold Parsed.parseInterface
  rw [index_eq (show offset + 5 < bytes.length by omega), ok_bind]
  split
  · exact ⟨_, rfl, hstep false hno⟩
  · next hclass =>
    rw [index_eq (show offset + 6 < bytes.length by omega), ok_bind]
    split
    · exact ⟨_, rfl, hstep false hno⟩
    · next hsubclass =>
      rw [index_eq (show offset + 7 < bytes.length by omega), ok_bind]
      exact ⟨_, rfl, hstep _ fun hprotocol =>
        ⟨hinterface, not_not.1 hclass, not_not.1 hsubclass, eq_of_beq hprotocol⟩⟩

/-- The companion is read inside the bytes, whatever is there. -/
theorem parseSuperspeedEndpointCompanion_ok (h : offset < bytes.length) :
    Succeeds (parseSuperspeedEndpointCompanion bytes offset) := by
  unfold parseSuperspeedEndpointCompanion
  rw [index_eq h, ok_bind]
  dsimp only
  split
  · exact ⟨_, rfl⟩
  · next hheader =>
    rw [index_eq (by omega), ok_bind, index_eq (by omega), ok_bind]
    split
    · exact ⟨_, rfl⟩
    · split
      · exact ⟨_, rfl⟩
      · next hlength =>
        rw [not_or] at hlength
        exact ⟨_, index_eq (by omega)⟩

theorem maxBurstOf_ok (speed : UsbSpeed) (h : offset < bytes.length) :
    Succeeds (maxBurstOf bytes speed offset) := by
  unfold maxBurstOf
  split
  · exact parseSuperspeedEndpointCompanion_ok h
  · exact ⟨0, rfl⟩

theorem parseEndpoint_sound (speed : UsbSpeed) (h : Sound bytes offset s)
    (hfits : Fits bytes offset) (hkind : byteAt bytes (offset + 1) = usbDtEndpoint)
    (hactive : s.activeMassStorage = true) (hlength : 7 ≤ lengthAt bytes offset) :
    ∃ s', s.parseEndpoint bytes speed offset = .ok s' ∧
      Sound bytes (offset + lengthAt bytes offset) s' := by
  have hinside := hfits.inside
  -- An endpoint is no interface: the one in front of it stays the last.
  have hpass : Sound bytes (offset + lengthAt bytes offset) s :=
    h.pass hfits fun hinterface => absurd (hkind.symm.trans hinterface.1) (by decide)
  unfold Parsed.parseEndpoint
  rw [index_eq (show offset + 2 < bytes.length by omega), ok_bind,
    index_eq (show offset + 3 < bytes.length by omega), ok_bind]
  split
  · next hbulk =>
    rw [index_eq (show offset + 4 < bytes.length by omega), ok_bind,
      index_eq (show offset + 5 < bytes.length by omega), ok_bind]
    obtain ⟨maxBurst, hburst⟩ := maxBurstOf_ok speed (show offset < bytes.length by omega)
    rw [hburst, ok_bind]
    exact ⟨_, rfl, hpass.note ⟨offset, h.active hactive, hfits, hkind, hlength, rfl, hbulk, rfl⟩⟩
  · exact ⟨s, rfl, hpass⟩

/-- One descriptor. The cases are those of its type. -/
theorem parseDescriptor_sound (speed : UsbSpeed) (h : Sound bytes offset s)
    (hfits : Fits bytes offset) :
    ∃ s', s.parseDescriptor bytes speed offset (lengthAt bytes offset) = .ok s' ∧
      Sound bytes (offset + lengthAt bytes offset) s' := by
  have hheader := hfits.header
  unfold Parsed.parseDescriptor
  rw [index_eq (show offset + 1 < bytes.length by omega), ok_bind]
  split
  · next hinterface => exact parseInterface_sound h hfits hinterface
  · next hother =>
    split
    · next hendpoint =>
      exact parseEndpoint_sound speed h hfits hendpoint.1 hendpoint.2.1 hendpoint.2.2
    · exact ⟨s, rfl, h.pass hfits hother⟩

/-- The loop ends, since every descriptor has a length. -/
theorem parseLoop_sound (speed : UsbSpeed) (fuel : Nat) :
    ∀ {offset : Nat} {s : Parsed}, Sound bytes offset s → bytes.length < fuel + offset →
      ∃ s' offset', Parsed.parseLoop bytes speed fuel offset s = .ok s' ∧
        Sound bytes offset' s' := by
  induction fuel with
  | zero =>
    -- There is no offset of the chain behind the end.
    intro offset s h hfuel
    exact absurd (h.linked.le (Nat.zero_le _)) (by omega)
  | succ fuel ih =>
    intro offset s h hfuel
    rw [Parsed.parseLoop]
    split
    · next hheader =>
      rw [index_eq (show offset < bytes.length by omega), ok_bind]
      split
      · exact ⟨s, offset, rfl, h⟩
      · next hlength =>
        obtain ⟨hnonempty, hinside⟩ := not_or.1 hlength
        have hfits : Fits bytes offset := ⟨hheader, hnonempty, Nat.not_lt.1 hinside⟩
        obtain ⟨s', hrun, hs'⟩ := parseDescriptor_sound speed h hfits
        have hpos : 0 < lengthAt bytes offset := Nat.pos_of_ne_zero hnonempty
        rw [show (byteAt bytes offset).toNat = lengthAt bytes offset from rfl, hrun, ok_bind]
        exact ih hs' (by omega)
    · exact ⟨s, offset, rfl, h⟩

/-- **Parsing the configuration.** For all bytes and every speed the function returns without a read
behind the end. The endpoints of a configuration that it returns are bulk endpoints of their
direction, below an interface of the class 08/06/50, with the packet sizes of their descriptors, and
the largest index covers both. -/
theorem parse_sound (descriptor : List UInt8) (speed : UsbSpeed) :
    ∃ result, parseMassStorageConfiguration descriptor speed = .ok result ∧
      ∀ cfg, result = some cfg →
        (cfg.bulkInEp &&& usbEndpointDirMask ≠ 0 ∧
          Found descriptor cfg.bulkInEp cfg.maxPacketIn cfg.maxEpIndex) ∧
        (cfg.bulkOutEp &&& usbEndpointDirMask = 0 ∧
          Found descriptor cfg.bulkOutEp cfg.maxPacketOut cfg.maxEpIndex) := by
  obtain ⟨s, offset, hrun, hsound⟩ := parseLoop_sound speed (descriptor.length + 1)
    (sound_new descriptor) (Nat.lt_succ_self _)
  refine ⟨s.result, by rw [parseMassStorageConfiguration, hrun]; rfl, fun cfg hcfg => ?_⟩
  obtain ⟨bulkIn, hin, hcfg⟩ := Option.bind_eq_some_iff.1 hcfg
  obtain ⟨bulkOut, hout, hcfg⟩ := Option.bind_eq_some_iff.1 hcfg
  cases hcfg
  exact ⟨hsound.bulkIn bulkIn hin, hsound.bulkOut bulkOut hout⟩

/-- An interface with an endpoint for each direction. -/
theorem parse_sound_two :
    ∃ cfg, parseMassStorageConfiguration
        [9, 4, 0, 0, 2, 8, 6, 0x50, 0, 7, 5, 0x81, 2, 0, 2, 0, 7, 5, 2, 2, 0, 2, 0] .high =
          .ok (some cfg) ∧
      cfg = ⟨0x81, 2, 512, 512, 0, 0, 3⟩ ∧
      Found [9, 4, 0, 0, 2, 8, 6, 0x50, 0, 7, 5, 0x81, 2, 0, 2, 0, 7, 5, 2, 2, 0, 2, 0] 0x81 512
        3 := by
  obtain ⟨result, hrun, hsound⟩ := parse_sound
    [9, 4, 0, 0, 2, 8, 6, 0x50, 0, 7, 5, 0x81, 2, 0, 2, 0, 7, 5, 2, 2, 0, 2, 0] .high
  have hresult : result = some ⟨0x81, 2, 512, 512, 0, 0, 3⟩ := Except.ok.inj (hrun.symm.trans rfl)
  rw [hresult] at hrun
  exact ⟨_, hrun, rfl, (hsound _ hresult).1.2⟩

end MiniVisor.Drivers.Configuration
