import MiniVisor.Paging.Walk

/-!
# What a mapping does to the tables

The tables of one VM are recorded by an `Owner`. A word of a recorded table is a `Slot`: it has a
depth and a first address. `Effect` says what a part of `_map_address_stage2` may do: it writes
words whose addresses are in the range it works on, and it records only pages that were free. So the
words of other addresses are looked up as before (`Effect.frame`).

`EntryMaps` and `TableMaps` say what becomes of the lookups when one word or a table is mapped: the
addresses from the current one on lead to the physical addresses, and the others are as before. The
main result is `mapTable_spec`, for every depth and every number of concatenated tables.
-/

set_option autoImplicit false

namespace MiniVisor.Paging

open MiniVisor.Lib MiniVisor.Lib.Radix

variable {σ : Type} {A : PageAllocator σ} {own own' own'' : Owner}

/-! ## Slots -/

/-- The number of bytes that a descriptor at a depth translates. -/
abbrev span (k : Nat) : Nat := stage2Format.size k

theorem span_zero : span 0 = 4096 := rfl

theorem span_succ (k : Nat) : span (k + 1) = 512 * span k := stage2Format.size_succ k

theorem span_pos (k : Nat) : 0 < span k := stage2Format.size_pos k

theorem add_mul_span_le {i : Nat} (k : Nat) (hi : i < 512) : i * span k + span k ≤ span (k + 1) :=
  stage2Format.add_mul_size_le k hi

theorem page_dvd_span (k : Nat) : 4096 ∣ span k := Nat.dvd_mul_right _ _

/-- The bytes of a page. -/
def page (t : Nat) : Set Nat := Set.Ico t (t + 4096)

/-- The word at `e` belongs to a recorded table, and translates from address `b` on. -/
def Slot (own : Owner) (k e b : Nat) : Prop :=
  ∃ t c i, own t = some (k, c) ∧ i < 512 ∧ e = t + 8 * i ∧ b = c + i * span k

/-- Recorded tables are aligned pages that a descriptor can refer to. -/
def Aligned (own : Owner) : Prop := ∀ t x, own t = some x → 4096 ∣ t ∧ t < 2 ^ 48

theorem Slot.grows {k e b : Nat} (h : Slot own k e b) (hg : own.Grows own') : Slot own' k e b := by
  obtain ⟨t, c, i, ht, hi, he, hb⟩ := h
  exact ⟨t, c, i, hg t _ ht, hi, he, hb⟩

theorem mem_page_of_lt {t i : Nat} (hi : i < 512) : t + 8 * i ∈ page t := ⟨by omega, by omega⟩

/-- A word has one place. -/
theorem Slot.unique (ha : Aligned own) {k k' e b b' : Nat} (h : Slot own k e b)
    (h' : Slot own k' e b') : k = k' ∧ b = b' := by
  obtain ⟨t, c, i, ht, hi, he, hb⟩ := h
  obtain ⟨t', c', i', ht', hi', he', hb'⟩ := h'
  have hdvd := (ha t _ ht).1
  have hdvd' := (ha t' _ ht').1
  obtain rfl : t = t' := by omega
  obtain rfl : i = i' := by omega
  rw [ht] at ht'
  obtain ⟨rfl, rfl⟩ := Prod.mk.inj (Option.some.inj ht')
  exact ⟨rfl, by rw [hb, hb']⟩

/-- The words of a table inside some addresses are slots inside them. -/
theorem slot_of_inside {lo hi t i : Nat} (h : wordFormat.Inside own lo hi t) (hi' : i < 512) :
    ∃ k b, Slot own k (t + 8 * i) b ∧ lo ≤ b ∧ b + span k ≤ hi := by
  obtain ⟨k, c, ht, hlo, hhi⟩ := h
  change c + span (k + 1) ≤ hi at hhi
  have hle := add_mul_span_le k hi'
  exact ⟨k, c + i * span k, ⟨t, c, i, ht, hi', rfl, rfl⟩, by omega, by omega⟩

/-! ## Sound records -/

/-- The allocator is in a good state, the recorded tables are aligned pages that are not free, and a
descriptor of a table has no other bits than the code writes. -/
structure Sound (A : PageAllocator σ) (own : Owner) (m : Machine σ) : Prop where
  valid : A.Valid m.pool
  below : ∀ a ∈ A.free m.pool, a < 2 ^ 48
  aligned : Aligned own
  held : ∀ t x, own t = some x → Disjoint (page t) (A.free m.pool)
  words : ∀ {k e b t}, Slot own (k + 1) e b → descriptorKind (k + 1) (m.memory e) = .table t →
    m.memory e = tableDescriptor t

/-- What a part of the mapping does, on descriptors of at most a depth and with addresses in
`[lo, hi)`. -/
structure Effect (A : PageAllocator σ) (own own' : Owner) (m m' : Machine σ) (depth lo hi : Nat) :
    Prop where
  grows : own.Grows own'
  fresh : ∀ t x, own t = none → own' t = some x → page t ⊆ A.free m.pool
  shrinks : A.free m'.pool ⊆ A.free m.pool
  writes : ∀ a, m'.memory a ≠ m.memory a →
    ∃ k b, Slot own' k a b ∧ k ≤ depth ∧ lo ≤ b ∧ b + span k ≤ hi

namespace Effect

variable {m m' m'' : Machine σ} {depth lo hi : Nat}

theorem refl (A : PageAllocator σ) (own : Owner) (m : Machine σ) (depth lo hi : Nat) :
    Effect A own own m m depth lo hi :=
  ⟨Owner.Grows.refl own, fun _ _ hn ht => absurd (hn.symm.trans ht) nofun, subset_rfl,
    fun _ h => absurd rfl h⟩

theorem mono {depth' lo' hi' : Nat} (h : Effect A own own' m m' depth lo hi) (hd : depth ≤ depth')
    (hlo : lo' ≤ lo) (hhi : hi ≤ hi') : Effect A own own' m m' depth' lo' hi' := by
  refine ⟨h.grows, h.fresh, h.shrinks, fun a ha => ?_⟩
  obtain ⟨k, b, hs, hk, hb, hbi⟩ := h.writes a ha
  exact ⟨k, b, hs, by omega, by omega, by omega⟩

theorem trans (h : Effect A own own' m m' depth lo hi)
    (h' : Effect A own' own'' m' m'' depth lo hi) : Effect A own own'' m m'' depth lo hi := by
  refine ⟨h.grows.trans h'.grows, fun t x hn ht => ?_, h'.shrinks.trans h.shrinks, fun a ha => ?_⟩
  · cases hmid : own' t with
    | none => exact (h'.fresh t x hmid ht).trans h.shrinks
    | some y => exact h.fresh t y hn hmid
  · by_cases hmid : m''.memory a = m'.memory a
    · rw [hmid] at ha
      obtain ⟨k, b, hs, hb⟩ := h.writes a ha
      exact ⟨k, b, hs.grows h'.grows, hb⟩
    · exact h'.writes a hmid

/-- A word of deeper tables or of other addresses keeps its value. -/
theorem word_eq (h : Effect A own own' m m' depth lo hi) (ha : Aligned own') {k e b : Nat}
    (hs : Slot own' k e b) (hout : depth < k ∨ b + span k ≤ lo ∨ hi ≤ b) :
    m'.memory e = m.memory e := by
  by_contra hne
  obtain ⟨k', b', hs', hk', hlo, hhi⟩ := h.writes e hne
  obtain ⟨rfl, rfl⟩ := hs.unique ha hs'
  have := span_pos k
  omega

/-- The lookups of other addresses are as before. -/
theorem frame (h : Effect A own own' m m' depth lo hi) (ha : Aligned own') {k e b : Nat}
    (hs : Slot own k e b) (hserves : wordFormat.Serves own m.memory k e b)
    (hout : b + span k ≤ lo ∨ hi ≤ b) :
    wordFormat.Serves own' m'.memory k e b ∧
      ∀ x, wordFormat.walk m'.memory k e x = wordFormat.walk m.memory k e x := by
  have hsame : wordFormat.Same own m.memory m'.memory k e b := by
    refine ⟨h.word_eq ha (hs.grows h.grows) (.inr hout), fun t ht i hi' => ?_⟩
    change wordFormat.Inside own b (b + span k) t at ht
    obtain ⟨k', b', hs', hlo, hhi⟩ := slot_of_inside (ht.grows h.grows) hi'
    have := span_pos k'
    exact h.word_eq ha hs' (by omega)
  obtain ⟨hserves', hwalk, -⟩ := hserves.frame h.grows k hsame
  exact ⟨hserves', hwalk⟩

end Effect

/-! ## Lookups -/

/-- The three words move on together by whole pages. -/
structure Moves (m m' : Mapping σ) (n : Nat) : Prop where
  intermediate : m'.intermediatePhysicalAddress = m.intermediatePhysicalAddress + n
  physical : m'.physicalAddress = m.physicalAddress + n
  remaining : m.remainingSize = m'.remainingSize + n
  pages : 4096 ∣ n

theorem Moves.trans {m m' m'' : Mapping σ} {n n' : Nat} (h : Moves m m' n) (h' : Moves m' m'' n') :
    Moves m m'' (n + n') :=
  ⟨by rw [h'.intermediate, h.intermediate, Nat.add_assoc],
    by rw [h'.physical, h.physical, Nat.add_assoc],
    by rw [h.remaining, h'.remaining]; omega, Nat.dvd_add h.pages h'.pages⟩

/-- What a lookup finds: a page or block descriptor with its depth, and the position in it. -/
abbrev Found := Option ((Nat × Descriptor) × Nat)

/-- The lookup of `x` leads to the address that belongs to it when `n` bytes from `ipa` on are
mapped to `p`, by a page or block among these bytes. -/
def Lands (access : Access) (p ipa n x : Nat) (found : Found) : Prop :=
  ∃ k d, found = some ((k, d), x % span k) ∧ ipa ≤ x / span k * span k ∧
    x / span k * span k + span k ≤ ipa + n ∧ WordFor access d ∧
    (4096 ∣ p → p + (x - ipa) < 2 ^ 48 → outputBits d (12 + 9 * k) + x % span k = p + (x - ipa))

/-- The page or block of `x` contains one of `n` addresses from `lo` on. -/
def Cut (lo n x : Nat) (old : Found) : Prop :=
  ∃ k d offset, old = some ((k, d), offset) ∧ ∃ y, lo ≤ y ∧ y < lo + n ∧ y / span k = x / span k

/-- What becomes of the lookup of `x` when `n` bytes are mapped. It leads to the new address when it
is one of them. Otherwise it is as before, or it is lost when its block is cut. -/
structure Turns (access : Access) (m : Mapping σ) (n x : Nat) (new old : Found) : Prop where
  mapped : m.intermediatePhysicalAddress ≤ x → x < m.intermediatePhysicalAddress + n →
    Lands access m.physicalAddress m.intermediatePhysicalAddress n x new
  cut : x < m.intermediatePhysicalAddress ∨ m.intermediatePhysicalAddress + n ≤ x →
    Cut m.intermediatePhysicalAddress n x old → new = none
  kept : x < m.intermediatePhysicalAddress ∨ m.intermediatePhysicalAddress + n ≤ x →
    ¬ Cut m.intermediatePhysicalAddress n x old → new = old

theorem not_cut_none (lo n x : Nat) : ¬ Cut lo n x none := by
  rintro ⟨_, _, _, h, _⟩
  cases h

theorem Cut.mono {lo n x lo' n' : Nat} {old : Found} (h : Cut lo n x old) (hlo : lo' ≤ lo)
    (hhi : lo + n ≤ lo' + n') : Cut lo' n' x old := by
  obtain ⟨k, d, offset, hold, y, hy, hy', hxy⟩ := h
  exact ⟨k, d, offset, hold, y, by omega, by omega, hxy⟩

/-- The block of an address that has just been mapped is not cut by what follows. -/
theorem Lands.not_cut {access : Access} {p ipa n x lo n' : Nat} {found : Found}
    (h : Lands access p ipa n x found) (hlo : ipa + n ≤ lo) : ¬ Cut lo n' x found := by
  rintro ⟨k, d, offset, hfound, y, hy, -, hxy⟩
  obtain ⟨k', d', hfound', -, hend, -⟩ := h
  rw [hfound'] at hfound
  cases hfound
  have hlt := Nat.lt_div_mul_add (span_pos k) (a := y)
  rw [hxy] at hlt
  omega

theorem Lands.mono {access : Access} {p ipa n n' x : Nat} {found : Found}
    (h : Lands access p ipa n x found) (hn : n ≤ n') : Lands access p ipa n' x found := by
  obtain ⟨k, d, hfound, hlo, hhi, hword, hbase⟩ := h
  exact ⟨k, d, hfound, hlo, by omega, hword, hbase⟩

/-- The second part of a mapping, seen from its start. -/
theorem Lands.shift {access : Access} {p ipa n n' x : Nat} {found : Found} (hn : 4096 ∣ n)
    (h : Lands access (p + n) (ipa + n) n' x found) (hx : ipa + n ≤ x) :
    Lands access p ipa (n + n') x found := by
  obtain ⟨k, d, hfound, hlo, hhi, hword, hbase⟩ := h
  refine ⟨k, d, hfound, by omega, by omega, hword, fun hp hlt => ?_⟩
  have hsum : p + n + (x - (ipa + n)) = p + (x - ipa) := by omega
  rw [← hsum] at hlt ⊢
  exact hbase (Nat.dvd_add hp hn) hlt

theorem Turns.trans {access : Access} {m m' : Mapping σ} {n n' x : Nat} {new mid old : Found}
    (hm : Moves m m' n) (h : Turns access m n x mid old) (h' : Turns access m' n' x new mid) :
    Turns access m (n + n') x new old := by
  have hi := hm.intermediate
  refine ⟨fun hlo hhi => ?_, fun hout hcut => ?_, fun hout hcut => ?_⟩
  · by_cases hx : x < m'.intermediatePhysicalAddress
    · have hmid := h.mapped hlo (by omega)
      rw [h'.kept (.inl hx) (hmid.not_cut (by omega))]
      exact hmid.mono (by omega)
    · have hnew := h'.mapped (by omega) (by omega)
      rw [hi, hm.physical] at hnew
      exact hnew.shift hm.pages (by omega)
  · -- A block that the first part has cut is not there any more for the second one.
    by_cases hfirst : Cut m.intermediatePhysicalAddress n x old
    · have hmid := h.cut (by omega) hfirst
      rw [h'.kept (by omega) (hmid ▸ not_cut_none _ _ _), hmid]
    · have hmid := h.kept (by omega) hfirst
      refine h'.cut (by omega) ?_
      obtain ⟨k, d, offset, hold, y, hy, hy', hxy⟩ := hcut
      refine ⟨k, d, offset, hmid.trans hold, y, ?_, by omega, hxy⟩
      by_contra hbefore
      exact hfirst ⟨k, d, offset, hold, y, hy, by omega, hxy⟩
  · have hmid := h.kept (by omega) fun hfirst => hcut (hfirst.mono (Nat.le_refl _) (by omega))
    rw [h'.kept (by omega) ?_, hmid]
    rw [hmid]
    exact fun hsecond => hcut (hsecond.mono (by omega) (by omega))

theorem takePages_spec {s s' : σ} {n align address : Nat} (hv : A.Valid s) (ha : align < 64)
    (hn : n < 2 ^ 52) (h : takePages A s n align = .ok (address, s')) :
    A.Valid s' ∧ 2 ^ align ∣ address ∧ Set.Ico address (address + n * pageSize) ⊆ A.free s ∧
      A.free s' = A.free s \ Set.Ico address (address + n * pageSize) := by
  obtain ⟨⟨reply, pool⟩, hallocate, h⟩ := bind_eq_ok.1 h
  cases reply with
  | error e => cases h
  | ok a =>
    cases h
    exact A.spec hv ha hn hallocate

/-! ## One descriptor -/

/-- What a step on a descriptor keeps, whatever the addresses are. -/
structure Keeps (A : PageAllocator σ) (own own' : Owner) (m m' : Mapping σ) (k e b : Nat) :
    Prop where
  sound : Sound A own' m'.toMachine
  effect : Effect A own own' m.toMachine m'.toMachine k b (b + span k)
  serves : wordFormat.Serves own' m'.memory k e b

/-- A descriptor to be mapped next: the current address is among its addresses. -/
structure EntryReady (own : Owner) (m : Mapping σ) (k e b : Nat) : Prop where
  slot : Slot own k e b
  aligned : span k ∣ b
  serves : wordFormat.Serves own m.memory k e b
  start : b ≤ m.intermediatePhysicalAddress
  stop : m.intermediatePhysicalAddress < b + span k
  pages : 4096 ∣ m.intermediatePhysicalAddress
  pending : 0 < m.remainingSize

/-- A descriptor is mapped, up to its end or up to the end of what is to be mapped. -/
structure EntryMaps (A : PageAllocator σ) (access : Access) (own own' : Owner) (m m' : Mapping σ)
    (k e b n : Nat) : Prop extends Keeps A own own' m m' k e b where
  moves : Moves m m' n
  within : m'.intermediatePhysicalAddress ≤ b + span k
  full : m'.remainingSize = 0 ∨ m'.intermediatePhysicalAddress = b + span k
  lookup : ∀ x, b ≤ x → x < b + span k →
    Turns access m n x (wordFormat.walk m'.memory k e x) (wordFormat.walk m.memory k e x)

section Leaf

variable {access : Access} {m m' : Mapping σ} {k e b : Nat}

theorem put_eq_ok {d : Descriptor} {size : Nat} (h : m.put e d size = .ok m') :
    m'.toMachine = ⟨Function.update m.memory e d, m.pool⟩ ∧
      m'.intermediatePhysicalAddress = m.intermediatePhysicalAddress + size ∧
      m'.physicalAddress = m.physicalAddress + size ∧
      m.remainingSize = m'.remainingSize + size := by
  unfold Mapping.put at h
  obtain ⟨p, hp, h⟩ := bind_eq_ok.1 h
  obtain ⟨i, hi, h⟩ := bind_eq_ok.1 h
  obtain ⟨r, hr, h⟩ := bind_eq_ok.1 h
  cases h
  exact ⟨rfl, eq_of_checkedAdd hi, eq_of_checkedAdd hp, eq_of_checkedSub hr⟩

theorem put_memory {d : Descriptor} {size : Nat} (h : m.put e d size = .ok m') :
    m'.memory e = d ∧ ∀ a, a ≠ e → m'.memory a = m.memory a := by
  rw [(put_eq_ok h).1]
  exact ⟨Function.update_self e d m.memory, fun a ha => Function.update_of_ne ha d m.memory⟩

/-- A page or a block is written: above level 3 it is no table. -/
theorem keeps_of_put (hs : Sound A own m.toMachine) (hslot : Slot own k e b) {d : Descriptor}
    {size : Nat} (hno : ∀ j t, k = j + 1 → descriptorKind (j + 1) d ≠ .table t)
    (hput : m.put e d size = .ok m') : Keeps A own own m m' k e b := by
  obtain ⟨hword, hother⟩ := put_memory hput
  have hpool : m'.pool = m.pool := by rw [(put_eq_ok hput).1]
  refine ⟨⟨?_, ?_, hs.aligned, ?_, ?_⟩, ⟨Owner.Grows.refl own, ?_, ?_, ?_⟩, ?_⟩
  · rw [hpool]
    exact hs.valid
  · rw [hpool]
    exact hs.below
  · rw [hpool]
    exact hs.held
  · intro k' e' b' t hslot' htable
    by_cases heq : e' = e
    · rw [heq] at hslot' htable
      obtain ⟨hk, -⟩ := hslot'.unique hs.aligned hslot
      rw [hword] at htable
      exact absurd htable (hno k' t hk.symm)
    · rw [hother e' heq] at htable ⊢
      exact hs.words hslot' htable
  · exact fun _ _ hn ht => absurd (hn.symm.trans ht) nofun
  · rw [hpool]
  · intro a ha
    obtain rfl : a = e := by
      by_contra hne
      exact ha (hother a hne)
    exact ⟨k, b, hslot, Nat.le_refl _, Nat.le_refl _, Nat.le_refl _⟩
  · cases k with
    | zero => exact trivial
    | succ k =>
      intro t ht
      rw [hword] at ht
      exact absurd (wordKind_table_iff.1 ht) (hno k t rfl)

/-- The page or block of an address of a descriptor. -/
theorem div_mul_span {x : Nat} (hb : span k ∣ b) (hlo : b ≤ x) (hhi : x < b + span k) :
    x / span k * span k = b ∧ x % span k = x - b := by
  obtain ⟨c, rfl⟩ := hb
  have hdiv : x / span k = c := by
    refine Nat.div_eq_of_lt_le (by rwa [Nat.mul_comm]) ?_
    rwa [Nat.succ_mul, Nat.mul_comm]
  have hmod := Nat.div_add_mod x (span k)
  rw [hdiv] at hmod ⊢
  exact ⟨Nat.mul_comm _ _, by omega⟩

/-- A page or a block is mapped. -/
theorem EntryMaps.of_put (hs : Sound A own m.toMachine) (h : EntryReady own m k e b)
    {d : Descriptor} {l : Leaf} (hkind : descriptorKind k d = .leaf l) (hword : WordFor access d)
    (hout : 2 ^ (12 + 9 * k) ∣ m.physicalAddress → m.physicalAddress < 2 ^ 48 →
      outputBits d (12 + 9 * k) = m.physicalAddress)
    (halign : 4096 ∣ m.physicalAddress → span k ∣ m.physicalAddress)
    (hbase : m.intermediatePhysicalAddress = b) (hput : m.put e d (span k) = .ok m') :
    EntryMaps A access own own m m' k e b (span k) := by
  obtain ⟨-, hi, hp, hr⟩ := put_eq_ok hput
  have hleaf : wordFormat.kind k (m'.memory e) = .leaf (k, d) := by
    rw [(put_memory hput).1]
    exact wordKind_leaf hkind
  have hkeeps : Keeps A own own m m' k e b := by
    refine keeps_of_put hs h.slot (fun j t hj => ?_) hput
    rw [← hj, hkind]
    nofun
  refine ⟨hkeeps, ⟨hi, hp, hr, page_dvd_span k⟩, by omega, .inr (by omega), fun x hlo hhi => ?_⟩
  obtain ⟨hblock, hoffset⟩ := div_mul_span h.aligned hlo hhi
  refine ⟨fun _ _ => ?_, by omega, by omega⟩
  refine ⟨k, d, Format.walk_leaf hleaf x, by omega, by omega, hword, fun hpage hlt => ?_⟩
  rw [hout (by rw [← size_eq]; exact halign hpage) (by omega), hoffset, hbase]

theorem entryMaps_page (hs : Sound A own m.toMachine) (h : EntryReady own m 0 e b)
    (hput : m.put e (pageDescriptor access m.physicalAddress) pageSize = .ok m') :
    ∃ own' n, EntryMaps A access own own' m m' 0 e b n := by
  obtain ⟨l, hkind, -⟩ := kind_pageDescriptor access m.physicalAddress
  have hbase : m.intermediatePhysicalAddress = b := by
    have hstart := h.start
    have hstop := h.stop
    have hpages := h.pages
    have haligned := h.aligned
    rw [span_zero] at hstop haligned
    omega
  exact ⟨own, span 0, .of_put hs h hkind (wordFor_validated access _ _ (by decide))
    (fun hp hlt => outputBits_leafDescriptor access (by omega) hp hlt (by decide)) id hbase hput⟩

theorem shiftLeft_eq_span (k : Nat) : 1 <<< (12 + 9 * k) = span k := by
  rw [Nat.shiftLeft_eq, Nat.one_mul, ← size_eq]

theorem span_dvd_of_and_eq_zero {a k : Nat} (h : a &&& ((1 <<< (12 + 9 * k)) - 1) = 0) :
    span k ∣ a := by
  rw [Nat.shiftLeft_eq, Nat.one_mul, Nat.and_two_pow_sub_one_eq_mod, ← size_eq] at h
  exact Nat.dvd_of_mod_eq_zero h

theorem entryMaps_block (hs : Sound A own m.toMachine) (h : EntryReady own m (k + 1) e b)
    (hk : k + 1 ≤ 2) (hp : span (k + 1) ∣ m.physicalAddress)
    (hi : span (k + 1) ∣ m.intermediatePhysicalAddress)
    (hput : m.put e (blockDescriptor access m.physicalAddress) (span (k + 1)) = .ok m') :
    ∃ own' n, EntryMaps A access own own' m m' (k + 1) e b n := by
  obtain ⟨l, hkind, -⟩ := kind_blockDescriptor access hk
    (Nat.dvd_trans (page_dvd_span (k + 1)) hp)
  have hbase : m.intermediatePhysicalAddress = b := by
    obtain ⟨hblock, -⟩ := div_mul_span h.aligned h.start h.stop
    rwa [Nat.div_mul_cancel hi] at hblock
  exact ⟨own, span (k + 1), .of_put hs h hkind (wordFor_validated access _ _ (by decide))
    (fun hp hlt => outputBits_leafDescriptor access (by omega) hp hlt (by decide)) (fun _ => hp)
    hbase hput⟩

end Leaf

/-! ## The table below a descriptor -/

section Open

variable {m m₁ : Mapping σ} {k e b t : Nat}

/-- A descriptor refers to a recorded table. Its lookups are as before, or it was a block and they
are lost. -/
structure Opened (A : PageAllocator σ) (own own₁ : Owner) (m m₁ : Mapping σ) (k e b t : Nat) :
    Prop where
  sound : Sound A own₁ m₁.toMachine
  effect : Effect A own own₁ m.toMachine m₁.toMachine (k + 1) b (b + span (k + 1))
  physical : m₁.physicalAddress = m.physicalAddress
  intermediate : m₁.intermediatePhysicalAddress = m.intermediatePhysicalAddress
  remaining : m₁.remainingSize = m.remainingSize
  kind : wordFormat.kind (k + 1) (m₁.memory e) = .table t
  recorded : own₁ t = some (k, b)
  serves : ∀ i < 512, wordFormat.Serves own₁ m₁.memory k (t + 8 * i) (b + i * span k)
  lookup : ∀ x, wordFormat.walk m₁.memory (k + 1) e x = wordFormat.walk m.memory (k + 1) e x ∨
    wordFormat.walk m₁.memory (k + 1) e x = none ∧
      ∃ d, wordFormat.walk m.memory (k + 1) e x = some ((k + 1, d), x % span (k + 1))

theorem opened_of_table (hs : Sound A own m.toMachine) (hslot : Slot own (k + 1) e b)
    (h : wordFormat.Serves own m.memory (k + 1) e b)
    (htable : (m.memory e).isTableDescriptor = true) :
    Opened A own own m m k e b (m.memory e).getNextLevelTableAddress := by
  have hkind : descriptorKind (k + 1) (m.memory e) = .table (outputBits (m.memory e) 12) :=
    kind_eq_table_iff.2 ⟨htable, rfl⟩
  obtain ⟨hown, hserves⟩ := h _ (wordKind_table_iff.2 hkind)
  obtain ⟨haligned, hlt⟩ := hs.aligned _ _ hown
  -- The code masks two more bits than the hardware; the descriptors it writes do not have them.
  have hnext : (m.memory e).getNextLevelTableAddress = outputBits (m.memory e) 12 := by
    have hword := hs.words hslot hkind
    calc (m.memory e).getNextLevelTableAddress
        = (tableDescriptor (outputBits (m.memory e) 12)).getNextLevelTableAddress := by rw [← hword]
      _ = outputBits (m.memory e) 12 := getNextLevelTableAddress_tableDescriptor haligned hlt
  rw [hnext]
  exact ⟨hs, Effect.refl A own m.toMachine _ _ _, rfl, rfl, rfl, wordKind_table_iff.2 hkind, hown,
    hserves, fun _ => .inl rfl⟩

/-- The record with one more table. -/
def record (own : Owner) (t k b : Nat) : Owner := Function.update own t (some (k, b))

theorem record_eq_some {x : Nat × Nat} {u : Nat} (h : record own t k b u = some x) :
    (u = t ∧ x = (k, b)) ∨ own u = some x := by
  unfold record at h
  by_cases hu : u = t
  · rw [hu, Function.update_self] at h
    exact .inl ⟨hu, (Option.some.inj h).symm⟩
  · rw [Function.update_of_ne hu] at h
    exact .inr h

theorem grows_record (hn : own t = none) (k b : Nat) : own.Grows (record own t k b) := by
  intro u x hu
  have hne : u ≠ t := by
    rintro rfl
    rw [hn] at hu
    cases hu
  unfold record
  rw [Function.update_of_ne hne]
  exact hu

theorem initTable_eq {memory : Nat → Descriptor} {a n : Nat}
    (h : initTable memory t n a ≠ memory a) : ∃ i < n, a = t + 8 * i := by
  unfold initTable at h
  split_ifs at h with hin
  · exact ⟨(a - t) / 8, by omega, by omega⟩
  · exact absurd rfl h

theorem initTable_slot {memory : Nat → Descriptor} {n i : Nat} (hi : i < n) :
    initTable memory t n (t + 8 * i) = Descriptor.init :=
  if_pos ⟨by omega, by omega, by omega⟩

/-- A new table is empty. -/
theorem opened_of_new (hs : Sound A own m.toMachine) (hslot : Slot own (k + 1) e b)
    (hno : (m.memory e).isTableDescriptor = false) {pool : σ}
    (htake : takePages A m.pool 1 12 = .ok (t, pool)) :
    Opened A own (record own t k b) m
      { m with
        memory := Function.update (initTable m.memory t 512) e (tableDescriptor t), pool } k e b
          t := by
  obtain ⟨hvalid, hdvd, hfree, hfree'⟩ := takePages_spec hs.valid (by decide) (by decide) htake
  rw [Nat.one_mul] at hfree hfree'
  change page t ⊆ A.free m.pool at hfree
  change A.free pool = A.free m.pool \ page t at hfree'
  have ht : t ∈ page t := ⟨Nat.le_refl _, by omega⟩
  have hlt : t < 2 ^ 48 := hs.below t (hfree ht)
  have hnone : own t = none := by
    cases hown : own t with
    | none => rfl
    | some x => exact absurd (hfree ht) (Set.disjoint_left.1 (hs.held t x hown) ht)
  have hgrows := grows_record hnone k b
  have hrecorded : record own t k b t = some (k, b) := Function.update_self t _ own
  have haligned : Aligned (record own t k b) := by
    intro u x hu
    rcases record_eq_some hu with ⟨rfl, -⟩ | hu
    · exact ⟨hdvd, hlt⟩
    · exact hs.aligned u x hu
  -- The words of the new page are not the descriptor, whose page is not free.
  have hne : ∀ i < 512, t + 8 * i ≠ e := by
    rintro i hi rfl
    obtain ⟨u, c, j, hu, hj, he, -⟩ := hslot
    have hin : t + 8 * i ∈ page u := by
      rw [he]
      exact mem_page_of_lt hj
    exact Set.disjoint_left.1 (hs.held u _ hu) hin (hfree (mem_page_of_lt hi))
  have hword : ∀ i < 512, Function.update (initTable m.memory t 512) e (tableDescriptor t)
      (t + 8 * i) = Descriptor.init := by
    intro i hi
    rw [Function.update_of_ne (hne i hi)]
    exact initTable_slot hi
  have hempty : ∀ i < 512, ∀ j, wordFormat.kind j (Function.update (initTable m.memory t 512) e
      (tableDescriptor t) (t + 8 * i)) = .empty := by
    intro i hi j
    rw [hword i hi]
    exact wordKind_empty (kind_init j)
  have hkind : wordFormat.kind (k + 1) (Function.update (initTable m.memory t 512) e
      (tableDescriptor t) e) = .table t := by
    rw [Function.update_self]
    exact wordKind_table_iff.2 (kind_tableDescriptor hdvd hlt k)
  refine ⟨⟨hvalid, ?_, haligned, ?_, ?_⟩, ⟨hgrows, ?_, ?_, ?_⟩, rfl, rfl, rfl, hkind,
    hrecorded, ?_, ?_⟩
  · intro a ha
    rw [hfree'] at ha
    exact hs.below a ha.1
  · intro u x hu
    rw [hfree']
    rcases record_eq_some hu with ⟨rfl, -⟩ | hu
    · exact Set.disjoint_sdiff_right
    · exact (hs.held u x hu).mono_right Set.sdiff_subset
  · intro k' e' b' u hslot htable
    obtain ⟨v, c, i, hv, hi, rfl, hb⟩ := hslot
    rcases record_eq_some hv with ⟨rfl, -⟩ | hv
    · -- A word of the new table.
      dsimp only at htable
      rw [hword i hi, kind_init] at htable
      cases htable
    · by_cases he : v + 8 * i = e
      · dsimp only at htable ⊢
        rw [he, Function.update_self] at htable ⊢
        rw [kind_tableDescriptor hdvd hlt k'] at htable
        cases htable
        rfl
      · have hkept : Function.update (initTable m.memory t 512) e (tableDescriptor t) (v + 8 * i) =
            m.memory (v + 8 * i) := by
          rw [Function.update_of_ne he]
          by_contra hchanged
          obtain ⟨j, hj, heq⟩ := initTable_eq hchanged
          exact Set.disjoint_left.1 (hs.held v _ hv) (mem_page_of_lt hi)
            (hfree (heq ▸ mem_page_of_lt hj))
        dsimp only at htable ⊢
        rw [hkept] at htable ⊢
        exact hs.words ⟨v, c, i, hv, hi, rfl, hb⟩ htable
  · intro u x hn hu
    rcases record_eq_some hu with ⟨rfl, -⟩ | hu
    · exact hfree
    · rw [hn] at hu
      cases hu
  · rw [hfree']
    exact Set.sdiff_subset
  · intro a ha
    by_cases he : a = e
    · rw [he]
      exact ⟨k + 1, b, hslot.grows hgrows, Nat.le_refl _, Nat.le_refl _, Nat.le_refl _⟩
    · change Function.update (initTable m.memory t 512) e (tableDescriptor t) a ≠ m.memory a at ha
      rw [Function.update_of_ne he] at ha
      obtain ⟨i, hi, rfl⟩ := initTable_eq ha
      have hle := add_mul_span_le k hi
      exact ⟨k, b + i * span k, ⟨t, b, i, hrecorded, hi, rfl, rfl⟩, by omega, by omega, by omega⟩
  · intro i hi
    apply Format.serves_of_no_table
    intro u
    rw [hempty i hi k]
    nofun
  · intro x
    have hnew : wordFormat.walk (Function.update (initTable m.memory t 512) e (tableDescriptor t))
        (k + 1) e x = none := by
      rw [Format.walk_table hkind]
      exact Format.walk_empty (hempty _ (Nat.mod_lt _ (by decide)) k) x
    dsimp only
    rw [hnew]
    cases hold : wordFormat.kind (k + 1) (m.memory e) with
    | empty =>
      rw [Format.walk_empty hold]
      exact .inl rfl
    | leaf word =>
      rw [Format.walk_leaf hold, eq_of_wordKind_leaf hold]
      exact .inr ⟨rfl, _, rfl⟩
    | table u =>
      rw [(kind_eq_table_iff.1 (wordKind_table_iff.1 hold)).1] at hno
      cases hno

theorem nextLevelTable_spec (hs : Sound A own m.toMachine) (hslot : Slot own (k + 1) e b)
    (h : wordFormat.Serves own m.memory (k + 1) e b)
    (hnext : nextLevelTable A e m = .ok (t, m₁)) : ∃ own₁, Opened A own own₁ m m₁ k e b t := by
  unfold nextLevelTable at hnext
  cases htable : (m.memory e).isTableDescriptor with
  | true =>
    rw [if_pos htable] at hnext
    cases hnext
    exact ⟨own, opened_of_table hs hslot h htable⟩
  | false =>
    rw [if_neg (by rw [htable]; decide)] at hnext
    obtain ⟨⟨t', pool⟩, htake, hnext⟩ := bind_eq_ok.1 hnext
    cases hnext
    exact ⟨_, opened_of_new hs hslot htable htake⟩

end Open

/-! ## Tables -/

section Table

variable {access : Access} {m m' m'' : Mapping σ} {k t num base n n' : Nat}

/-- A table to be mapped from the current address on. -/
structure TableReady (own : Owner) (m : Mapping σ) (k t num base : Nat) : Prop where
  slot : ∀ i < num, Slot own k (t + 8 * i) (base + i * span k)
  aligned : num * span k ∣ base
  serves : ∀ i < num, wordFormat.Serves own m.memory k (t + 8 * i) (base + i * span k)
  start : base ≤ m.intermediatePhysicalAddress
  stop : m.intermediatePhysicalAddress < base + num * span k
  pages : 4096 ∣ m.intermediatePhysicalAddress
  pending : 0 < m.remainingSize

/-- What steps on some descriptors of a table keep, whatever the addresses are. -/
structure TableKeeps (A : PageAllocator σ) (own own' : Owner) (m m' : Mapping σ)
    (k t num base : Nat) : Prop where
  sound : Sound A own' m'.toMachine
  effect : Effect A own own' m.toMachine m'.toMachine k base (base + num * span k)
  serves : ∀ i < num, wordFormat.Serves own' m'.memory k (t + 8 * i) (base + i * span k)

/-- Some descriptors of a table are mapped. -/
structure TableMaps (A : PageAllocator σ) (access : Access) (own own' : Owner) (m m' : Mapping σ)
    (k t num base n : Nat) : Prop extends TableKeeps A own own' m m' k t num base where
  moves : Moves m m' n
  within : m'.intermediatePhysicalAddress ≤ base + num * span k
  lookup : ∀ i < num, ∀ x, base + i * span k ≤ x → x < base + i * span k + span k →
    Turns access m n x (wordFormat.walk m'.memory k (t + 8 * i) x)
      (wordFormat.walk m.memory k (t + 8 * i) x)

theorem TableKeeps.trans (h : TableKeeps A own own' m m' k t num base)
    (h' : TableKeeps A own' own'' m' m'' k t num base) :
    TableKeeps A own own'' m m'' k t num base :=
  ⟨h'.sound, h.effect.trans h'.effect, h'.serves⟩

theorem TableMaps.trans (h : TableMaps A access own own' m m' k t num base n)
    (h' : TableMaps A access own' own'' m' m'' k t num base n') :
    TableMaps A access own own'' m m'' k t num base (n + n') :=
  ⟨h.toTableKeeps.trans h'.toTableKeeps, h.moves.trans h'.moves, h'.within,
    fun i hi x hlo hhi => (h.lookup i hi x hlo hhi).trans h.moves (h'.lookup i hi x hlo hhi)⟩

/-- The end of an entry of a table. -/
theorem entry_end_le {i num : Nat} (k base : Nat) (hi : i < num) :
    base + i * span k + span k ≤ base + num * span k := by
  have := Nat.mul_le_mul_right (span k) (show i + 1 ≤ num from hi)
  rw [Nat.succ_mul] at this
  omega

theorem entries_apart {i j : Nat} (k base : Nat) (h : i ≠ j) :
    base + i * span k + span k ≤ base + j * span k ∨
      base + j * span k + span k ≤ base + i * span k := by
  rcases Nat.lt_or_gt_of_ne h with h | h
  · exact .inl (entry_end_le k base h)
  · exact .inr (entry_end_le k base h)

/-- The other descriptors of a table are left alone. -/
theorem Keeps.other {i j : Nat} (h : Keeps A own own' m m' k (t + 8 * j) (base + j * span k))
    (hslot : Slot own k (t + 8 * i) (base + i * span k))
    (hserves : wordFormat.Serves own m.memory k (t + 8 * i) (base + i * span k)) (hij : i ≠ j) :
    wordFormat.Serves own' m'.memory k (t + 8 * i) (base + i * span k) ∧
      ∀ x, wordFormat.walk m'.memory k (t + 8 * i) x = wordFormat.walk m.memory k (t + 8 * i) x :=
  h.effect.frame h.sound.aligned hslot hserves (entries_apart k base hij)

theorem TableKeeps.of_entry {j : Nat} (hj : j < num)
    (hslot : ∀ i < num, Slot own k (t + 8 * i) (base + i * span k))
    (hserves : ∀ i < num, wordFormat.Serves own m.memory k (t + 8 * i) (base + i * span k))
    (h : Keeps A own own' m m' k (t + 8 * j) (base + j * span k)) :
    TableKeeps A own own' m m' k t num base := by
  have hend := entry_end_le k base hj
  refine ⟨h.sound, h.effect.mono (Nat.le_refl _) (Nat.le_add_right _ _) hend, fun i hi => ?_⟩
  by_cases hij : i = j
  · rw [hij]
    exact h.serves
  · exact (h.other (hslot i hi) (hserves i hi) hij).1

/-- The pages and blocks below two descriptors are different. -/
theorem not_cut_other {i j lo n x : Nat} (hb : span k ∣ base) (hij : i ≠ j)
    {memory : Nat → Descriptor}
    {e : Nat} (hlo : base + i * span k ≤ x) (hhi : x < base + i * span k + span k)
    (hrange : base + j * span k ≤ lo) (hend : lo + n ≤ base + j * span k + span k) :
    ¬ Cut lo n x (wordFormat.walk memory k e x) := by
  rintro ⟨k', d, offset, hfound, y, hy, hy', hxy⟩
  obtain ⟨hle, -, -⟩ := walk_same_word k hfound hxy
  have hsize : span k = span k' * 512 ^ (k - k') := by
    show 4096 * 512 ^ k = 4096 * 512 ^ k' * 512 ^ (k - k')
    rw [Nat.mul_assoc, ← Nat.pow_add, Nat.add_sub_cancel' hle]
  have hquot : y / span k = x / span k := by
    rw [hsize, ← Nat.div_div_eq_div_mul, ← Nat.div_div_eq_div_mul, hxy]
  obtain ⟨hx, -⟩ := div_mul_span (Nat.dvd_add hb (Nat.dvd_mul_left _ _)) hlo hhi
  obtain ⟨hy, -⟩ := div_mul_span (Nat.dvd_add hb (Nat.dvd_mul_left _ _))
    (show base + j * span k ≤ y by omega) (show y < base + j * span k + span k by omega)
  have hapart := entries_apart k base hij
  have hpos := span_pos k
  rw [hquot, hx] at hy
  omega

theorem TableMaps.of_entry {j : Nat} (hj : j < num) (h₀ : TableReady own m k t num base)
    (h : EntryMaps A access own own' m m' k (t + 8 * j) (base + j * span k) n)
    (hi : base + j * span k ≤ m.intermediatePhysicalAddress) :
    TableMaps A access own own' m m' k t num base n := by
  have hend := entry_end_le k base hj
  have hmoved := h.moves.intermediate
  have hwithin := h.within
  refine ⟨.of_entry hj h₀.slot h₀.serves h.toKeeps, h.moves, by omega, fun i hi x hlo hhi => ?_⟩
  by_cases hij : i = j
  · rw [hij] at hlo hhi ⊢
    exact h.lookup x hlo hhi
  · have hapart := entries_apart k base hij
    have hsame := (h.toKeeps.other (h₀.slot i hi) (h₀.serves i hi) hij).2 x
    refine ⟨by omega, fun _ hcut => ?_, fun _ _ => hsame⟩
    exact absurd hcut (not_cut_other (Nat.dvd_trans (Nat.dvd_mul_left _ _) h₀.aligned) hij hlo hhi
      (by omega) (by omega))

/-- What is left to map after one descriptor is ready. -/
theorem TableReady.next (h : TableReady own m k t num base)
    (hm : TableMaps A access own own' m m' k t num base n)
    (hstop : m'.intermediatePhysicalAddress < base + num * span k) (hp : 0 < m'.remainingSize) :
    TableReady own' m' k t num base := by
  have hmoved := hm.moves.intermediate
  have hstart := h.start
  refine ⟨fun i hi => (h.slot i hi).grows hm.effect.grows, h.aligned, hm.serves, by omega, hstop,
    ?_, hp⟩
  rw [hmoved]
  exact Nat.dvd_add h.pages hm.moves.pages

theorem TableKeeps.refl (hs : Sound A own m.toMachine)
    (hserves : ∀ i < num, wordFormat.Serves own m.memory k (t + 8 * i) (base + i * span k)) :
    TableKeeps A own own m m k t num base :=
  ⟨hs, Effect.refl A own m.toMachine _ _ _, hserves⟩

theorem TableReady.entry (h : TableReady own m k t num base) {j : Nat} (hj : j < num)
    (hstart : base + j * span k ≤ m.intermediatePhysicalAddress)
    (hstop : m.intermediatePhysicalAddress < base + j * span k + span k) :
    EntryReady own m k (t + 8 * j) (base + j * span k) :=
  ⟨h.slot j hj, Nat.dvd_add (Nat.dvd_trans (Nat.dvd_mul_left _ _) h.aligned) (Nat.dvd_mul_left _ _),
    h.serves j hj, hstart, hstop, h.pages, h.pending⟩

/-- What the body of a loop does with a descriptor at a depth. -/
def StepSpec (A : PageAllocator σ) (access : Access) (k : Nat)
    (step : Nat → Mapping σ → Except Fault (Mapping σ)) : Prop :=
  ∀ {own : Owner} {m m' : Mapping σ} {e b : Nat}, Sound A own m.toMachine → EntryReady own m k e b →
    step e m = .ok m' → ∃ own' n, EntryMaps A access own own' m m' k e b n

/-- The loop maps the table from the current address on, up to its end or up to the end of what is
to be mapped. The induction is on the descriptors that are left. -/
theorem overDescriptors_spec {step : Nat → Mapping σ → Except Fault (Mapping σ)}
    (hstep : StepSpec A access k step) (left : Nat) :
    ∀ {own : Owner} {m : Mapping σ} {j : Nat}, j + left = num → 0 < left → Sound A own m.toMachine →
      TableReady own m k t num base → base + j * span k ≤ m.intermediatePhysicalAddress →
      m.intermediatePhysicalAddress < base + j * span k + span k →
      overDescriptors step left (t + 8 * j) m = .ok m' →
      ∃ own' n, TableMaps A access own own' m m' k t num base n ∧
        (m'.remainingSize = 0 ∨ m'.intermediatePhysicalAddress = base + num * span k) := by
  induction left with
  | zero => exact fun _ h => absurd h (Nat.lt_irrefl 0)
  | succ left ih =>
    intro own m j hj _ hs hready hstart hstop h
    obtain ⟨m₁, hone, h⟩ := bind_eq_ok.1 h
    obtain ⟨own₁, n, hentry⟩ := hstep hs (hready.entry (by omega) hstart hstop) hone
    have hmaps := TableMaps.of_entry (by omega) hready hentry hstart
    by_cases hdone : m₁.remainingSize = 0
    · rw [if_pos hdone] at h
      cases h
      exact ⟨own₁, n, hmaps, .inl hdone⟩
    · rw [if_neg hdone] at h
      have hend : m₁.intermediatePhysicalAddress = base + j * span k + span k :=
        hentry.full.resolve_left hdone
      have hnext : base + (j + 1) * span k = m₁.intermediatePhysicalAddress := by
        rw [hend, Nat.succ_mul, Nat.add_assoc]
      cases left with
      | zero =>
        cases h
        refine ⟨own₁, n, hmaps, .inr ?_⟩
        rw [← hnext, hj]
      | succ left =>
        have hlast := entry_end_le k base (show j + 1 < num by omega)
        have hpos := span_pos k
        have hready' := hready.next hmaps (by omega) (Nat.pos_of_ne_zero hdone)
        obtain ⟨own', n', hrest, hfull⟩ := ih (j := j + 1) (by omega) (by omega) hmaps.sound hready'
          (by omega) (by omega) (by rw [Nat.mul_succ, ← Nat.add_assoc]; exact h)
        exact ⟨own', n + n', hmaps.trans hrest, hfull⟩

/-- The word of an address in a table. -/
theorem exists_index {x : Nat} (hlo : base ≤ x) (hhi : x < base + num * span k) :
    ∃ i < num, base + i * span k ≤ x ∧ x < base + i * span k + span k := by
  refine ⟨(x - base) / span k, Nat.div_lt_of_lt_mul ?_, ?_, ?_⟩
  · rw [Nat.mul_comm]
    omega
  · have := Nat.div_mul_le_self (x - base) (span k)
    omega
  · have := Nat.lt_div_mul_add (span_pos k) (a := x - base)
    omega

/-- The lookup of a descriptor that refers to a table. -/
theorem walk_slot {memory : Nat → Descriptor} {e i x : Nat}
    (h : wordFormat.kind (k + 1) (memory e) = .table t) (hb : span (k + 1) ∣ base) (hi : i < 512)
    (hlo : base + i * span k ≤ x) (hhi : x < base + i * span k + span k) :
    wordFormat.walk memory (k + 1) e x = wordFormat.walk memory k (t + 8 * i) x := by
  have hindex : x / span k % 512 = i :=
    stage2Format.index_eq (Nat.mod_eq_zero_of_dvd hb) hi hlo hhi
  rw [Format.walk_table h, show x / wordFormat.size k % wordFormat.fan = i from hindex]
  rfl

theorem Opened.ready {m₁ : Mapping σ} {own₁ : Owner} {e b : Nat}
    (h : Opened A own own₁ m m₁ k e b t)
    (hready : EntryReady own m (k + 1) e b) : TableReady own₁ m₁ k t 512 b := by
  have hspan := span_succ k
  have hstart := hready.start
  have hstop := hready.stop
  refine ⟨fun i hi => ⟨t, b, i, h.recorded, hi, rfl, rfl⟩, ?_, h.serves, ?_, ?_, ?_, ?_⟩
  · rw [← hspan]
    exact hready.aligned
  · rw [h.intermediate]
    exact hstart
  · rw [h.intermediate, ← hspan]
    exact hstop
  · rw [h.intermediate]
    exact hready.pages
  · rw [h.remaining]
    exact hready.pending

/-- The descriptor is of a higher level than what is written to its table. -/
theorem Opened.keeps {m₁ : Mapping σ} {own₁ : Owner} {e b : Nat}
    (hopen : Opened A own own₁ m m₁ k e b t) (hslot : Slot own (k + 1) e b)
    (h : TableKeeps A own₁ own' m₁ m' k t 512 b) :
    wordFormat.kind (k + 1) (m'.memory e) = .table t ∧ Keeps A own own' m m' (k + 1) e b := by
  have hspan := span_succ k
  have hgrows := hopen.effect.grows.trans h.effect.grows
  have hword : m'.memory e = m₁.memory e :=
    h.effect.word_eq h.sound.aligned (hslot.grows hgrows) (.inl (Nat.lt_succ_self k))
  have hkind : wordFormat.kind (k + 1) (m'.memory e) = .table t := by
    rw [hword]
    exact hopen.kind
  have heffect : Effect A own₁ own' m₁.toMachine m'.toMachine (k + 1) b (b + span (k + 1)) :=
    h.effect.mono (Nat.le_succ k) (Nat.le_refl _) (by omega)
  refine ⟨hkind, h.sound, hopen.effect.trans heffect, fun u hu => ?_⟩
  rw [hkind] at hu
  cases hu
  exact ⟨h.effect.grows t _ hopen.recorded, h.serves⟩

/-- A descriptor is mapped when the table it refers to is. -/
theorem EntryMaps.of_table {m₁ : Mapping σ} {own₁ : Owner} {e b : Nat}
    (hopen : Opened A own own₁ m m₁ k e b t) (hready : EntryReady own m (k + 1) e b)
    (h : TableMaps A access own₁ own' m₁ m' k t 512 b n)
    (hfull : m'.remainingSize = 0 ∨ m'.intermediatePhysicalAddress = b + 512 * span k) :
    EntryMaps A access own own' m m' (k + 1) e b n := by
  have hspan := span_succ k
  obtain ⟨hkind, hkeeps⟩ := hopen.keeps hready.slot h.toTableKeeps
  have hmoves : Moves m m' n := by
    refine ⟨?_, ?_, ?_, h.moves.pages⟩
    · rw [h.moves.intermediate, hopen.intermediate]
    · rw [h.moves.physical, hopen.physical]
    · rw [← hopen.remaining, h.moves.remaining]
  have hstart := hready.start
  have hstop := hready.stop
  -- Something is mapped, so the current address is one of those that are.
  have hpos : 0 < n := by
    have hpending := hready.pending
    have hi := hmoves.intermediate
    have hr := hmoves.remaining
    omega
  refine ⟨hkeeps, hmoves, ?_, ?_, fun x hlo hhi => ?_⟩
  · rw [hspan]
    exact h.within
  · rw [hspan]
    exact hfull
  · obtain ⟨i, hi, hxlo, hxhi⟩ := exists_index hlo (show x < b + 512 * span k by omega)
    have hlook := h.lookup i hi x hxlo hxhi
    rw [← walk_slot hkind hready.aligned hi hxlo hxhi,
      ← walk_slot hopen.kind hready.aligned hi hxlo hxhi] at hlook
    obtain ⟨hmapped, hcut, hkept⟩ := hlook
    rw [hopen.intermediate] at hmapped hcut hkept
    rw [hopen.physical] at hmapped
    rcases hopen.lookup x with hsame | ⟨hnone, d, hblock⟩
    · rw [hsame] at hcut hkept
      exact ⟨hmapped, hcut, hkept⟩
    · -- The descriptor was a block, which is cut.
      refine ⟨hmapped, fun hout _ => ?_, fun _ hno => absurd ?_ hno⟩
      · rw [hnone] at hkept
        exact hkept hout (not_cut_none _ _ _)
      · refine ⟨k + 1, d, _, hblock, m.intermediatePhysicalAddress, Nat.le_refl _, by omega, ?_⟩
        have hx := (div_mul_span hready.aligned hlo hhi).1
        have hi := (div_mul_span hready.aligned hstart hstop).1
        exact Nat.eq_of_mul_eq_mul_right (span_pos _) (hi.trans hx.symm)

/-- The first descriptor that the code takes is the one of the current address. -/
theorem index_spec {c ipa : Nat} (hn : num = 2 ^ c) (ha : num * span k ∣ base) (hlo : base ≤ ipa)
    (hhi : ipa < base + num * span k) :
    ∃ j < num, (ipa >>> (12 + 9 * k)) &&& (num - 1) = j ∧ base + j * span k ≤ ipa ∧
      ipa < base + j * span k + span k := by
  obtain ⟨j, hj, hjlo, hjhi⟩ := exists_index hlo hhi
  refine ⟨j, hj, ?_, hjlo, hjhi⟩
  have hdiv : ipa / span k % num = j := by
    obtain ⟨q, rfl⟩ := ha
    have hsplit : num * span k * q + j * span k = (num * q + j) * span k := by ring
    have hquot : ipa / span k = num * q + j := by
      apply Nat.div_eq_of_lt_le
      · omega
      · rw [Nat.succ_mul]
        omega
    rw [hquot, Nat.mul_add_mod, Nat.mod_eq_of_lt hj]
  rw [hn, Nat.and_two_pow_sub_one_eq_mod, Nat.shiftRight_eq_div_pow, ← size_eq, ← hn]
  exact hdiv

end Table

/-- **The tables after a mapping.** The addresses of the table from the current one on lead to the
physical addresses, as far as there is something to map; all other addresses are looked up as
before. The induction is on the depth: a descriptor above level 3 becomes a block, or its table is
mapped. -/
theorem mapTable_spec (access : Access) (k : Nat) :
    ∀ {own : Owner} {m m' : Mapping σ} {t num base c : Nat}, num = 2 ^ c → Sound A own m.toMachine →
      TableReady own m k t num base → mapTable A access k num t m = .ok m' →
      ∃ own' n, TableMaps A access own own' m m' k t num base n ∧
        (m'.remainingSize = 0 ∨ m'.intermediatePhysicalAddress = base + num * span k) := by
  induction k with
  | zero =>
    intro own m m' t num base c hn hs hready h
    obtain ⟨j, hj, hindex, hjlo, hjhi⟩ := index_spec hn hready.aligned hready.start hready.stop
    rw [mapTable] at h
    rw [show 12 + 9 * 0 = 12 from rfl] at hindex
    simp only [hindex] at h
    exact overDescriptors_spec (fun hs hready hput => entryMaps_page hs hready hput) (num - j)
      (by omega) (by omega) hs hready hjlo hjhi h
  | succ k ih =>
    intro own m m' t num base c hn hs hready h
    obtain ⟨j, hj, hindex, hjlo, hjhi⟩ := index_spec hn hready.aligned hready.start hready.stop
    have hstep : StepSpec A access (k + 1)
        (mapBlockOrTable A access (k + 1) (mapTable A access k 512)) := by
      intro own m m' e b hs hready h
      unfold mapBlockOrTable at h
      dsimp only at h
      split_ifs at h with hblock
      · rw [shiftLeft_eq_span] at h
        exact entryMaps_block hs hready hblock.1 (span_dvd_of_and_eq_zero hblock.2.2.1)
          (span_dvd_of_and_eq_zero hblock.2.2.2) h
      · obtain ⟨⟨u, m₁⟩, hnext, h⟩ := bind_eq_ok.1 h
        obtain ⟨own₁, hopen⟩ := nextLevelTable_spec hs hready.slot hready.serves hnext
        obtain ⟨own', n, hmaps, hfull⟩ := ih (c := 9) rfl hopen.sound (hopen.ready hready) h
        exact ⟨own', n, .of_table hopen hready hmaps hfull⟩
    rw [mapTable] at h
    simp only [hindex] at h
    exact overDescriptors_spec hstep (num - j) (by omega) (by omega) hs hready hjlo hjhi h

/-! ## Any addresses -/

section Any

variable {access : Access} {m m' : Mapping σ} {k t num base : Nat}

/-- What the body of a loop keeps. -/
def StepKeeps (A : PageAllocator σ) (k : Nat) (step : Nat → Mapping σ → Except Fault (Mapping σ)) :
    Prop :=
  ∀ {own : Owner} {m m' : Mapping σ} {e b : Nat}, Sound A own m.toMachine → Slot own k e b →
    wordFormat.Serves own m.memory k e b → step e m = .ok m' →
      ∃ own', Keeps A own own' m m' k e b

theorem overDescriptors_keeps {step : Nat → Mapping σ → Except Fault (Mapping σ)}
    (hstep : StepKeeps A k step) (left : Nat) :
    ∀ {own : Owner} {m : Mapping σ} {j : Nat}, j + left = num → Sound A own m.toMachine →
      (∀ i < num, Slot own k (t + 8 * i) (base + i * span k)) →
      (∀ i < num, wordFormat.Serves own m.memory k (t + 8 * i) (base + i * span k)) →
      overDescriptors step left (t + 8 * j) m = .ok m' →
      ∃ own', TableKeeps A own own' m m' k t num base := by
  induction left with
  | zero =>
    intro own m j _ hs _ hserves h
    cases h
    exact ⟨own, .refl hs hserves⟩
  | succ left ih =>
    intro own m j hj hs hslot hserves h
    obtain ⟨m₁, hone, h⟩ := bind_eq_ok.1 h
    obtain ⟨own₁, hentry⟩ := hstep hs (hslot j (by omega)) (hserves j (by omega)) hone
    have hkeeps := TableKeeps.of_entry (by omega) hslot hserves hentry
    by_cases hdone : m₁.remainingSize = 0
    · rw [if_pos hdone] at h
      cases h
      exact ⟨own₁, hkeeps⟩
    · rw [if_neg hdone] at h
      obtain ⟨own', hrest⟩ := ih (j := j + 1) (by omega) hkeeps.sound
        (fun i hi => (hslot i hi).grows hkeeps.effect.grows) hkeeps.serves
        (by rw [Nat.mul_succ, ← Nat.add_assoc]; exact h)
      exact ⟨own', hkeeps.trans hrest⟩

/-- The tables stay sound for every address and every size. -/
theorem mapTable_keeps (access : Access) (k : Nat) :
    ∀ {own : Owner} {m m' : Mapping σ} {t num base : Nat}, 0 < num → Sound A own m.toMachine →
      (∀ i < num, Slot own k (t + 8 * i) (base + i * span k)) →
      (∀ i < num, wordFormat.Serves own m.memory k (t + 8 * i) (base + i * span k)) →
      mapTable A access k num t m = .ok m' → ∃ own', TableKeeps A own own' m m' k t num base := by
  induction k with
  | zero =>
    intro own m m' t num base hnum hs hslot hserves h
    have hindex : (m.intermediatePhysicalAddress >>> 12) &&& (num - 1) ≤ num - 1 := Nat.and_le_right
    refine overDescriptors_keeps (fun hs hslot _ hput => ?_) _ (by omega) hs hslot hserves h
    exact ⟨_, keeps_of_put hs hslot (fun j t hj => absurd hj (by omega)) hput⟩
  | succ k ih =>
    intro own m m' t num base hnum hs hslot hserves h
    have hindex : (m.intermediatePhysicalAddress >>> (12 + 9 * (k + 1))) &&& (num - 1) ≤ num - 1 :=
      Nat.and_le_right
    have hstep : StepKeeps A (k + 1)
        (mapBlockOrTable A access (k + 1) (mapTable A access k 512)) := by
      intro own m m' e b hs hslot hserves h
      unfold mapBlockOrTable at h
      dsimp only at h
      split_ifs at h with hblock
      · have hp := span_dvd_of_and_eq_zero hblock.2.2.1
        obtain ⟨l, hkind, -⟩ := kind_blockDescriptor access hblock.1
          (Nat.dvd_trans (page_dvd_span (k + 1)) hp)
        refine ⟨_, keeps_of_put hs hslot (fun j t hj => ?_) h⟩
        rw [← hj, hkind]
        nofun
      · obtain ⟨⟨u, m₁⟩, hnext, h⟩ := bind_eq_ok.1 h
        obtain ⟨own₁, hopen⟩ := nextLevelTable_spec hs hslot hserves hnext
        obtain ⟨own', hkeeps⟩ := ih (by decide) hopen.sound
          (fun i hi => ⟨u, b, i, hopen.recorded, hi, rfl, rfl⟩) hopen.serves h
        exact ⟨own', (hopen.keeps hslot hkeeps).2⟩
    exact overDescriptors_keeps hstep _ (by omega) hs hslot hserves h

end Any

/-- There is a loop body that runs, so nothing is mapped only by an underflow of the size. -/
theorem mapTable_pos (access : Access) (k : Nat) : ∀ {m m' : Mapping σ} {t num : Nat}, 0 < num →
    mapTable A access k num t m = .ok m' → 0 < m.remainingSize := by
  have hfirst : ∀ {step : Nat → Mapping σ → Except Fault (Mapping σ)} {left e : Nat}
      {m m' : Mapping σ}, 0 < left → overDescriptors step left e m = .ok m' →
      ∃ m₁, step e m = .ok m₁ := by
    intro step left e m m' hleft h
    obtain ⟨left, rfl⟩ := Nat.exists_eq_succ_of_ne_zero (Nat.pos_iff_ne_zero.1 hleft)
    obtain ⟨m₁, hstep, -⟩ := bind_eq_ok.1 h
    exact ⟨m₁, hstep⟩
  have hput : ∀ {m m' : Mapping σ} {e size : Nat} {d : Descriptor}, 0 < size →
      m.put e d size = .ok m' → 0 < m.remainingSize := by
    intro m m' e size d hsize h
    obtain ⟨_, -, h⟩ := bind_eq_ok.1 h
    obtain ⟨_, -, h⟩ := bind_eq_ok.1 h
    obtain ⟨_, hsub, -⟩ := bind_eq_ok.1 h
    have := eq_of_checkedSub hsub
    omega
  induction k with
  | zero =>
    intro m m' t num hnum h
    have hindex : (m.intermediatePhysicalAddress >>> 12) &&& (num - 1) ≤ num - 1 := Nat.and_le_right
    obtain ⟨m₁, hstep⟩ := hfirst (by omega) h
    exact hput (by decide) hstep
  | succ k ih =>
    intro m m' t num hnum h
    have hindex : (m.intermediatePhysicalAddress >>> (12 + 9 * (k + 1))) &&& (num - 1) ≤ num - 1 :=
      Nat.and_le_right
    obtain ⟨m₁, hstep⟩ := hfirst (by omega) h
    unfold mapBlockOrTable at hstep
    dsimp only at hstep
    split_ifs at hstep with hblock
    · refine hput ?_ hstep
      rw [shiftLeft_eq_span]
      exact wordFormat.size_pos _
    · obtain ⟨⟨u, m₂⟩, hnext, hstep⟩ := bind_eq_ok.1 hstep
      have hkept : m₂.remainingSize = m.remainingSize := by
        unfold nextLevelTable at hnext
        split_ifs at hnext
        · cases hnext
          rfl
        · obtain ⟨_, -, hnext⟩ := bind_eq_ok.1 hnext
          cases hnext
          rfl
      rw [← hkept]
      exact ih (by decide) hstep

end MiniVisor.Paging
