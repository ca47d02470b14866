import MiniVisor.Allocator.Overlap

/-!
# Failed requests

What an error of the allocator means. `error_unchanged` is for any state whatever: a request that
returns an error leaves every field as it was. The branches that grow or merge entries are decided
before the pool is asked for a new entry, and a merge gives an entry back to the pool.

`allocation_complete` is about the search for an allocation: it returns `NoMemory` exactly when no
free entry has room, although it skips the lists of smaller sizes and clamps each entry to the
limit. It rests on `free_size` and on the lists, and so on the frees that brought them about:
`allocation_misses_entry` is a run with overlapping frees after which the search misses an entry.
-/

set_option autoImplicit false

namespace MiniVisor.Allocator

open MiniVisor.Lib

/-! ## Errors change nothing -/

section Unchanged

variable {a b : MemoryAllocator} {err : MemoryError}

theorem carveClamped_error {entry start size : Nat}
    (h : carveClamped a entry start size = .ok (.error err, b)) : b = a := by
  have hfinish : ∀ {c : MemoryAllocator}, finishUsed c size ≠ .ok (.error err, b) := by
    intro c hc
    obtain ⟨_, -, hc⟩ := bind_eq_ok.1 hc
    cases hc
  unfold carveClamped at h
  dsimp only at h
  split_ifs at h
  · obtain ⟨_, -, h⟩ := bind_eq_ok.1 h
    split_ifs at h
    · exact (hfinish h).elim
    · obtain ⟨_, -, h⟩ := bind_eq_ok.1 h
      obtain ⟨_, -, h⟩ := bind_eq_ok.1 h
      exact (hfinish h).elim
  · cases h
    rfl
  · obtain ⟨_, -, h⟩ := bind_eq_ok.1 h
    obtain ⟨_, -, h⟩ := bind_eq_ok.1 h
    obtain ⟨_, -, h⟩ := bind_eq_ok.1 h
    exact (hfinish h).elim
  · obtain ⟨_, -, h⟩ := bind_eq_ok.1 h
    split_ifs at h
    · obtain ⟨_, -, h⟩ := bind_eq_ok.1 h
      obtain ⟨_, -, h⟩ := bind_eq_ok.1 h
      exact (hfinish h).elim
    · -- The entry is split: the error is the one of a pool without a free entry.
      obtain ⟨split, -, h⟩ := bind_eq_ok.1 h
      cases split with
      | none =>
        cases h
        rfl
      | some c => exact (hfinish h).elim

theorem defineUsedRange_error {start size : Nat} {target : Option Nat}
    (h : defineUsedRange a start size target = .ok (.error err, b)) : b = a := by
  have hcarve : ∀ {entry}, carve a entry start size = .ok (.error err, b) → b = a := by
    intro entry hc
    obtain ⟨_, -, hc⟩ := bind_eq_ok.1 hc
    exact carveClamped_error hc
  unfold defineUsedRange at h
  split_ifs at h
  · cases h
    rfl
  · cases h
    rfl
  · cases target with
    | some entry => exact hcarve h
    | none =>
      obtain ⟨found, -, h⟩ := bind_eq_ok.1 h
      cases found with
      | some entry => exact hcarve h
      | none =>
        cases h
        rfl

theorem defineUsedMemory_error {start size alignOrder : Nat} {target : Option Nat}
    (h : defineUsedMemory a start size alignOrder target = .ok (.error err, b)) : b = a := by
  unfold defineUsedMemory at h
  split_ifs at h
  · cases h
    rfl
  · cases h
    rfl
  · obtain ⟨_, -, h⟩ := bind_eq_ok.1 h
    exact defineUsedRange_error h
  · exact defineUsedRange_error h

theorem allocateFrom_error {size alignOrder addressLimit : Nat} (orders : List Nat) :
    allocateFrom a size alignOrder addressLimit orders = .ok (.error err, b) → b = a := by
  induction orders with
  | nil =>
    intro h
    cases h
    rfl
  | cons i orders ih =>
    intro h
    unfold allocateFrom at h
    cases hhead : a.freeList i with
    | none =>
      rw [hhead] at h
      exact ih h
    | some t =>
      rw [hhead] at h
      dsimp only at h
      cases hentry : getMemoryEntry t with
      | none =>
        rw [hentry] at h
        cases h
        rfl
      | some first =>
        rw [hentry] at h
        obtain ⟨found, -, h⟩ := bind_eq_ok.1 h
        cases found with
        | none => exact ih h
        | some place =>
          obtain ⟨⟨result, c⟩, hused, h⟩ := bind_eq_ok.1 h
          cases result with
          | ok u => cases h
          | error e =>
            cases h
            exact defineUsedMemory_error hused

theorem allocateWithAddressLimit_error {size alignOrder addressLimit : Nat}
    (h : allocateWithAddressLimit a size alignOrder addressLimit = .ok (.error err, b)) :
    b = a := by
  unfold allocateWithAddressLimit at h
  split_ifs at h
  · cases h
    rfl
  · cases h
    rfl
  · exact allocateFrom_error _ h

/-- A round that ends in an error or in another call has changed nothing. -/
def FreeStep.Unchanged (a : MemoryAllocator) : FreeStep → Prop
  | .done (.error _, b) => b = a
  | .done (.ok _, _) => True
  | .again b _ _ => b = a

theorem growUp_false {entry start stop after : Nat}
    (h : growUp a entry start stop after = .ok (false, b)) : b = a := by
  unfold growUp at h
  split_ifs at h
  · obtain ⟨_, -, h⟩ := bind_eq_ok.1 h
    cases h
  · cases h
    rfl

theorem growDown_false {entry start stop : Nat}
    (h : growDown a entry start stop = .ok (false, b)) : b = a := by
  unfold growDown at h
  split_ifs at h
  · obtain ⟨_, -, h⟩ := bind_eq_ok.1 h
    split_ifs at h
    · obtain ⟨_, -, h⟩ := bind_eq_ok.1 h
      cases h
    · cases h
      rfl
  · cases h
    rfl

theorem growNext_false {next start stop : Nat}
    (h : growNext a next start stop = .ok (false, b)) : b = a := by
  unfold growNext at h
  obtain ⟨_, -, h⟩ := bind_eq_ok.1 h
  split_ifs at h
  · obtain ⟨_, -, h⟩ := bind_eq_ok.1 h
    cases h
  · cases h
    rfl

theorem createMemoryEntry_ne_none {i : Nat} (hi : i < poolSize) (h : (a.pool i).enabled = false) :
    createMemoryEntry a ≠ none := by
  unfold createMemoryEntry
  cases hfind : (List.range poolSize).find? fun i => !(a.pool i).enabled with
  | some j => exact nofun
  | none =>
    have hall := List.find?_eq_none.1 hfind i (List.mem_range.2 hi)
    simp [h] at hall

/-- A merge leaves an entry for the pool. -/
theorem mergeNext_cases {entry next after : Nat} {processed : Bool} (hn : next < poolSize)
    (h : mergeNext a entry next after processed = .ok b) :
    b = a ∨ createMemoryEntry b ≠ none := by
  unfold mergeNext at h
  obtain ⟨_, -, h⟩ := bind_eq_ok.1 h
  split_ifs at h
  · obtain ⟨c, -, h⟩ := bind_eq_ok.1 h
    cases h
    refine .inr (createMemoryEntry_ne_none hn ?_)
    simp [delete]
  · cases h
    exact .inl rfl

theorem finishNew_unchanged {entry newEntry size oldSize : Nat} {c : MemoryAllocator}
    {step : FreeStep} (h : finishNew c entry newEntry size oldSize = .ok step) :
    step.Unchanged a := by
  obtain ⟨_, -, h⟩ := bind_eq_ok.1 h
  obtain ⟨_, -, h⟩ := bind_eq_ok.1 h
  obtain ⟨_, -, h⟩ := bind_eq_ok.1 h
  cases h
  exact trivial

theorem finishGrown_unchanged {entry size oldSize : Nat} {c : MemoryAllocator} {step : FreeStep}
    (h : finishGrown c entry size oldSize = .ok step) : step.Unchanged a := by
  obtain ⟨_, -, h⟩ := bind_eq_ok.1 h
  obtain ⟨_, -, h⟩ := bind_eq_ok.1 h
  cases h
  exact trivial

theorem insertWithNext_unchanged {entry next start stop size oldSize : Nat} {c : MemoryAllocator}
    {step : FreeStep} (hc : c = a ∨ createMemoryEntry c ≠ none)
    (h : insertWithNext c entry next start stop size oldSize = .ok step) : step.Unchanged a := by
  unfold insertWithNext at h
  cases hcreate : createMemoryEntry c with
  | none =>
    rw [hcreate] at h
    cases h
    exact hc.resolve_right (not_not.2 hcreate)
  | some new =>
    rw [hcreate] at h
    obtain ⟨d, -, h⟩ := bind_eq_ok.1 h
    split_ifs at h
    · cases hprev : getPrevEntry d entry with
      | none =>
        rw [hprev] at h
        exact finishNew_unchanged h
      | some prev =>
        rw [hprev] at h
        obtain ⟨_, -, h⟩ := bind_eq_ok.1 h
        exact finishNew_unchanged h
    · exact finishNew_unchanged h

theorem insertAtLast_unchanged {entry start stop size oldSize : Nat} {step : FreeStep}
    (h : insertAtLast a entry start stop size oldSize = .ok step) : step.Unchanged a := by
  unfold insertAtLast at h
  cases hcreate : createMemoryEntry a with
  | none =>
    rw [hcreate] at h
    cases h
    rfl
  | some new =>
    rw [hcreate] at h
    obtain ⟨d, -, h⟩ := bind_eq_ok.1 h
    split_ifs at h
    · exact finishNew_unchanged h
    · cases hprev : getPrevEntry d entry with
      | none =>
        rw [hprev] at h
        exact finishNew_unchanged h
      | some prev =>
        rw [hprev] at h
        obtain ⟨_, -, h⟩ := bind_eq_ok.1 h
        exact finishNew_unchanged h

/-- An entry that has grown before is an assertion that fails, or ends the request without an
error. -/
theorem freeWithNext_unchanged {entry next start stop size oldSize after : Nat} {processed : Bool}
    {c : MemoryAllocator} {step : FreeStep} (hn : next < poolSize) (hc : processed = false → c = a)
    (h : freeWithNext c entry next start stop size oldSize after processed = .ok step) :
    step.Unchanged a := by
  unfold freeWithNext at h
  by_cases hle : (c.pool next).start ≤ start
  · rw [if_pos hle] at h
    obtain ⟨_, hassert, h⟩ := bind_eq_ok.1 h
    have hprocessed : processed = false := by
      cases processed
      · rfl
      · cases hassert
    split_ifs at h
    · cases h
      exact hc hprocessed
    · obtain ⟨_, -, h⟩ := bind_eq_ok.1 h
      obtain ⟨_, -, h⟩ := bind_eq_ok.1 h
      cases h
      exact hc hprocessed
  · rw [if_neg hle] at h
    obtain ⟨⟨grown, d⟩, hgrow, h⟩ := bind_eq_ok.1 h
    obtain ⟨e, hmerge, hend⟩ := bind_eq_ok.1 h
    by_cases hdone : (processed || grown) = true
    · rw [if_pos hdone] at hend
      exact finishGrown_unchanged hend
    · rw [if_neg hdone] at hend
      obtain ⟨hp, rfl⟩ := Bool.or_eq_false_iff.1 (Bool.not_eq_true _ ▸ hdone)
      have hd : d = a := (growNext_false hgrow).trans (hc hp)
      refine insertWithNext_unchanged ?_ hend
      rw [← hd]
      exact mergeNext_cases hn hmerge

theorem freeBeside_unchanged {entry start stop size : Nat} {step : FreeStep}
    (h : freeBeside a entry start stop size = .ok step) : step.Unchanged a := by
  unfold freeBeside at h
  obtain ⟨after, -, h⟩ := bind_eq_ok.1 h
  obtain ⟨⟨up, c⟩, hup, h⟩ := bind_eq_ok.1 h
  obtain ⟨⟨down, d⟩, hdown, h⟩ := bind_eq_ok.1 h
  dsimp only at h
  have hsame : (up || down) = false → d = a := by
    intro hnone
    obtain ⟨rfl, rfl⟩ := Bool.or_eq_false_iff.1 hnone
    exact (growDown_false hdown).trans (growUp_false hup)
  cases hnext : getNextEntry d entry with
  | some next =>
    rw [hnext] at h
    have hlt : next < poolSize := by
      obtain ⟨_, -, hget⟩ := Option.bind_eq_some_iff.1 hnext
      unfold getMemoryEntry at hget
      split_ifs at hget
      cases hget
      omega
    exact freeWithNext_unchanged hlt hsame h
  | none =>
    rw [hnext] at h
    dsimp only at h
    split_ifs at h with hdone
    · exact finishGrown_unchanged h
    · rw [hsame (Bool.not_eq_true _ ▸ hdone)] at h
      exact insertAtLast_unchanged h

theorem freeAt_unchanged {entry start size : Nat} {step : FreeStep}
    (h : freeAt a entry start size = .ok step) : step.Unchanged a := by
  unfold freeAt at h
  obtain ⟨stop, -, h⟩ := bind_eq_ok.1 h
  dsimp only at h
  split_ifs at h
  · cases h
    rfl
  · obtain ⟨_, -, h⟩ := bind_eq_ok.1 h
    obtain ⟨_, -, h⟩ := bind_eq_ok.1 h
    obtain ⟨_, -, h⟩ := bind_eq_ok.1 h
    cases h
    rfl
  · obtain ⟨_, -, h⟩ := bind_eq_ok.1 h
    cases h
    rfl
  · exact freeBeside_unchanged h

theorem freeStep_unchanged {start size : Nat} {step : FreeStep}
    (h : freeStep a start size = .ok step) : step.Unchanged a := by
  unfold freeStep at h
  split_ifs at h
  · cases h
    rfl
  · obtain ⟨found, -, h⟩ := bind_eq_ok.1 h
    cases found with
    | some entry => exact freeAt_unchanged h
    | none =>
      dsimp only at h
      cases hfirst : a.firstEntry with
      | none =>
        rw [hfirst] at h
        cases h
      | some first =>
        rw [hfirst] at h
        dsimp only at h
        cases hentry : getMemoryEntry first with
        | some entry =>
          rw [hentry] at h
          exact freeAt_unchanged h
        | none =>
          rw [hentry] at h
          cases h
          rfl

/-- Every call but the last one has left the state alone. -/
theorem defineFreeMemory_error (fuel : Nat) : ∀ {start size : Nat},
    defineFreeMemory a start size fuel = .ok (.error err, b) → b = a := by
  induction fuel with
  | zero => exact fun h => nomatch h
  | succ fuel ih =>
    intro start size h
    obtain ⟨step, hstep, h⟩ := bind_eq_ok.1 h
    have hsame := freeStep_unchanged hstep
    cases step with
    | done outcome =>
      cases h
      exact hsame
    | again c start' size' =>
      cases hsame
      exact ih h

theorem free_error {start size : Nat} (h : free a start size = .ok (.error err, b)) : b = a := by
  unfold free at h
  split_ifs at h
  · cases hcreate : createMemoryEntry a with
    | none =>
      rw [hcreate] at h
      cases h
      rfl
    | some new =>
      rw [hcreate] at h
      obtain ⟨_, -, h⟩ := bind_eq_ok.1 h
      obtain ⟨_, -, h⟩ := bind_eq_ok.1 h
      obtain ⟨_, -, h⟩ := bind_eq_ok.1 h
      cases h
  · exact defineFreeMemory_error _ h

/-- A request that returns an error, in any state and for any reason, leaves the allocator as it
was: the free bytes, `free_size`, the chain, the lists and the entries in use. -/
theorem error_unchanged {request : Request} (h : exec a request = .ok (.error err, b)) : b = a := by
  cases request with
  | free start size =>
    obtain ⟨⟨result, c⟩, hrun, h⟩ := bind_eq_ok.1 h
    cases result with
    | ok u => cases h
    | error e =>
      cases h
      exact free_error hrun
  | allocate size alignOrder =>
    obtain ⟨⟨result, c⟩, hrun, h⟩ := bind_eq_ok.1 h
    cases result with
    | ok u => cases h
    | error e =>
      cases h
      exact allocateWithAddressLimit_error hrun
  | allocateBelow size alignOrder addressLimit =>
    obtain ⟨⟨result, c⟩, hrun, h⟩ := bind_eq_ok.1 h
    cases result with
    | ok u => cases h
    | error e =>
      cases h
      exact allocateWithAddressLimit_error hrun
  | reserve start size alignOrder =>
    obtain ⟨⟨result, c⟩, hrun, h⟩ := bind_eq_ok.1 h
    cases result with
    | ok u => cases h
    | error e =>
      cases h
      exact defineUsedMemory_error hrun

end Unchanged

/-- Every entry of the pool is a page, with gaps between them. -/
def fullPool : MemoryAllocator :=
  (List.range poolSize).foldl (fun a i => after a (.free (0x2000 * i) 0x1000)) .new

/-- One more page does not fit into the pool. -/
theorem error_unchanged_full : ∃ b,
    exec fullPool (.free 0x80000 0x1000) = .ok (.error .noEntry, b) ∧ b = fullPool := by
  have hfail : (exec fullPool (.free 0x80000 0x1000)).map Prod.fst = .ok (.error .noEntry) := by
    decide +kernel
  obtain ⟨b, hb⟩ := exists_of_map_fst hfail
  exact ⟨b, hb, error_unchanged hb⟩

/-! ## The classes of sizes -/

/-- The loop of `size_to_page_order` goes on for a larger size when it goes on for a smaller one. -/
theorem pageOrderFrom_mono {size size' : Nat} (hle : size ≤ size') (left : Nat) : ∀ order,
    pageOrderFrom size left order ≤ pageOrderFrom size' left order := by
  have hstart : ∀ left order, order ≤ pageOrderFrom size' left order := by
    intro left
    induction left with
    | zero => exact fun order => Nat.le_refl order
    | succ left ih =>
      intro order
      unfold pageOrderFrom
      split_ifs
      · exact Nat.le_succ order
      · exact Nat.le_of_succ_le (ih (order + 1))
      · exact Nat.le_refl order
  induction left with
  | zero => exact fun order => Nat.le_refl order
  | succ left ih =>
    intro order
    by_cases hsize : size > 2 ^ (order + pageShift)
    · rw [pageOrderFrom, pageOrderFrom, if_pos hsize, if_pos (Nat.lt_of_lt_of_le hsize hle)]
      split_ifs
      · exact Nat.le_refl _
      · exact ih (order + 1)
    · rw [pageOrderFrom, if_neg hsize]
      exact hstart (left + 1) order

theorem sizeToPageOrder_mono {size size' : Nat} (hle : size ≤ size') :
    sizeToPageOrder size ≤ sizeToPageOrder size' := pageOrderFrom_mono hle _ _

/-! ## The search is complete -/

/-- The aligned address is the first one from the start of the range on. -/
theorem le_of_alignAddressAndAvailableSize {start size alignOrder address available x : Nat}
    (h : alignAddressAndAvailableSize start size alignOrder = .ok (address, available))
    (hdvd : 2 ^ alignOrder ∣ x) (hx : start ≤ x) :
    address ≤ x ∧ start + size ≤ address + available := by
  unfold alignAddressAndAvailableSize at h
  split_ifs at h with hzero
  · cases h
    omega
  · obtain ⟨alignSize, hshift, h⟩ := bind_eq_ok.1 h
    obtain ⟨aligned, hadd, h⟩ := bind_eq_ok.1 h
    obtain ⟨skipped, hsub, h⟩ := bind_eq_ok.1 h
    have halign : alignSize = 2 ^ alignOrder := by
      unfold shiftOne at hshift
      split_ifs at hshift
      cases hshift
      rfl
    have haligned := eq_of_checkedAdd hadd
    have hskipped := eq_of_checkedSub hsub
    have hle : aligned ≤ x := by
      obtain ⟨k, rfl⟩ := hdvd
      have hk : (start - 1) / 2 ^ alignOrder < k := by
        rw [Nat.div_lt_iff_lt_mul (Nat.two_pow_pos alignOrder), Nat.mul_comm]
        omega
      rw [haligned, halign, maskAddress, ← Nat.succ_mul, Nat.mul_comm (2 ^ alignOrder)]
      exact Nat.mul_le_mul_right _ hk
    split_ifs at h
    · cases h
      exact ⟨hle, by omega⟩
    · cases h
      exact ⟨hle, by omega⟩

/-- An entry that is passed over has no room. -/
theorem not_fits_of_fitAddress {e : MemoryEntry} {size alignOrder addressLimit : Nat}
    (h : fitAddress e size alignOrder addressLimit = .ok none) (hsize : 0 < size) (address : Nat) :
    ¬Fits e size alignOrder addressLimit address := by
  intro hfit
  have hstart := hfit.start_le
  have hstop := hfit.le_stop
  have hbelow := hfit.below
  unfold fitAddress at h
  dsimp only at h
  have havail : (if min e.stop (addressLimit - 1) ≥ e.start then
      min e.stop (addressLimit - 1) - e.start + 1 else 0) =
      min e.stop (addressLimit - 1) - e.start + 1 := if_pos (by omega)
  rw [havail, if_pos (by omega)] at h
  split_ifs at h
  · obtain ⟨⟨aligned, available⟩, halign, h⟩ := bind_eq_ok.1 h
    obtain ⟨hle, hsum⟩ := le_of_alignAddressAndAvailableSize halign hfit.aligned hstart
    dsimp only at h
    rw [if_neg (by omega)] at h
    cases h
  · cases h

section Search

variable {a : MemoryAllocator} {chain : List Nat} {lists : Nat → List Nat}
  {size alignOrder : Nat} (addressLimit : Nat)

/-- A walk that finds nothing has passed over every entry of the list. -/
theorem walkList_none (h : Rep a chain lists) (hsize : 0 < size) {o : Nat}
    (hoo : o < numOfFreeList) : ∀ (r l : List Nat) (fuel : Nat), lists o = l ++ r →
      walkList a size alignOrder addressLimit fuel r.head? = .ok none →
      ∀ x ∈ r, ∀ address, ¬Fits (a.pool x) size alignOrder addressLimit address := by
  intro r
  induction r with
  | nil => exact fun _ _ _ _ x hx => nomatch hx
  | cons y r ih =>
    intro l fuel hs hwalk x hx address
    cases fuel with
    | zero => cases hwalk
    | succ fuel =>
      obtain ⟨found, hfound, hrest⟩ := bind_eq_ok.1 hwalk
      cases found with
      | some address => cases hrest
      | none =>
        rcases List.mem_cons.1 hx with rfl | hx
        · exact not_fits_of_fitAddress hfound hsize address
        · simp only [(h.filing.linked.neighbours hoo hs).2] at hrest
          exact ih (l ++ [y]) fuel (by rw [hs, List.append_assoc]; rfl) hrest x hx address

/-- What an answer says about the entries that the search looks at. -/
inductive Answers (a : MemoryAllocator) (chain : List Nat) (size alignOrder addressLimit : Nat)
    (looked : Nat → Prop) : Except MemoryError Nat → Prop
  /-- No entry has room. -/
  | none (h : ∀ x ∈ chain, looked x → ∀ address,
      ¬Fits (a.pool x) size alignOrder addressLimit address) :
      Answers a chain size alignOrder addressLimit looked (.error .noMemory)
  /-- An entry has room. The rest of it needs another entry. -/
  | full {x address : Nat} (hx : x ∈ chain)
      (hfit : Fits (a.pool x) size alignOrder addressLimit address)
      (hfull : chain.length = poolSize) :
      Answers a chain size alignOrder addressLimit looked (.error .noEntry)
  | taken {x address : Nat} (hx : x ∈ chain)
      (hfit : Fits (a.pool x) size alignOrder addressLimit address) :
      Answers a chain size alignOrder addressLimit looked (.ok address)

theorem Answers.mono {looked looked' : Nat → Prop} {result : Except MemoryError Nat}
    (h : Answers a chain size alignOrder addressLimit looked result)
    (hmono : ∀ x ∈ chain, looked' x → ∀ address,
      Fits (a.pool x) size alignOrder addressLimit address → looked x) :
    Answers a chain size alignOrder addressLimit looked' result := by
  cases h with
  | none h =>
    exact .none fun x hx hl address hfit => h x hx (hmono x hx hl address hfit) address hfit
  | full hx hfit hfull => exact .full hx hfit hfull
  | taken hx hfit => exact .taken hx hfit

/-- The induction is on the lists that are left. Those that the search has passed hold no entry with
room. -/
theorem allocateFrom_answers (h : Rep a chain lists) (hsize : 0 < size) (hfree : size ≤ a.freeSize)
    (ho : alignOrder < 64) (orders : List Nat) : (∀ o ∈ orders, o < numOfFreeList) →
    ∃ outcome, allocateFrom a size alignOrder addressLimit orders = .ok outcome ∧
      Answers a chain size alignOrder addressLimit (fun x => sizeToPageOrder (sizeOf a x) ∈ orders)
        outcome.1 := by
  induction orders with
  | nil => exact fun _ => ⟨_, rfl, .none fun _ _ hx => nomatch hx⟩
  | cons o orders ih =>
    intro horders
    have hoo := horders o List.mem_cons_self
    obtain ⟨outcome, hrest, hanswer⟩ := ih fun o' ho' => horders o' (List.mem_cons_of_mem _ ho')
    have hskip : (∀ x ∈ lists o, ∀ address, ¬Fits (a.pool x) size alignOrder addressLimit address) →
        Answers a chain size alignOrder addressLimit
          (fun x => sizeToPageOrder (sizeOf a x) ∈ o :: orders) outcome.1 := by
      intro hnone
      refine hanswer.mono addressLimit fun x hx hl address hfit => ?_
      rcases List.mem_cons.1 hl with hxo | hl
      · exact absurd hfit (hnone x ((h.filing.filed.mem o hoo x).2 ⟨hx, hxo⟩) address)
      · exact hl
    have hhead := h.filing.linked.head_ref hoo
    have hheadEq := (h.filing.linked.linked o hoo).head_eq
    simp only [allocateFrom]
    cases hl : lists o with
    | nil =>
      rw [hheadEq, hl]
      exact ⟨outcome, hrest, hskip fun x hx => by rw [hl] at hx; cases hx⟩
    | cons t r =>
      have hlen := h.filing.linked.length_le hoo
      obtain ⟨found, hok, hfound⟩ := walkList_spec addressLimit h hsize ho hoo
        (t :: r) [] poolSize hl
        (by rw [hl] at hlen; exact hlen)
      rw [hl] at hhead hheadEq
      rw [hheadEq] at hhead ⊢
      simp only [List.head?_cons, Option.bind_some] at hhead hok ⊢
      simp only [hhead, hok, ok_bind]
      cases found with
      | none =>
        refine ⟨outcome, hrest, hskip ?_⟩
        rw [hl]
        exact walkList_none addressLimit h hsize hoo (t :: r) [] poolSize hl hok
      | some place =>
        obtain ⟨x, address⟩ := place
        obtain ⟨hx, hfit⟩ := hfound x address rfl
        have hlim := h.stop_lt hx
        have hpw := physicalLimit_lt
        have hstart := hfit.start_le
        have hstop := hfit.le_stop
        obtain ⟨l, r', rfl⟩ := List.append_of_mem hx
        dsimp only
        rw [defineUsedMemory_eq_carve hsize hfree]
        rcases carve_spec h hstart (by omega) hsize (by omega) with ⟨b, hused, -⟩ | ⟨hused, hlen⟩
        · rw [hused]
          exact ⟨_, rfl, .taken hx hfit⟩
        · rw [hused]
          exact ⟨_, rfl, .full hx hfit hlen⟩

/-- Entries in the lists of smaller sizes are too small, and so is every entry when `free_size` is.
-/
theorem allocateWithAddressLimit_answers (h : Rep a chain lists) (hsize : 0 < size)
    (ho : alignOrder < 64) :
    ∃ outcome, allocateWithAddressLimit a size alignOrder addressLimit = .ok outcome ∧
      Answers a chain size alignOrder addressLimit (fun _ => True) outcome.1 := by
  have hroom : ∀ {x address}, Fits (a.pool x) size alignOrder addressLimit address →
      size ≤ sizeOf a x := by
    intro x address hfit
    have hstart := hfit.start_le
    have hstop := hfit.le_stop
    show size ≤ (a.pool x).getSize
    unfold MemoryEntry.getSize
    omega
  unfold allocateWithAddressLimit
  rw [if_neg (by omega)]
  split_ifs with hfree
  · refine ⟨_, rfl, .none fun x hx _ address hfit => ?_⟩
    have hle : sizeOf a x ≤ a.freeSize := by
      rw [h.freeSize, total, List.map_map]
      exact List.single_le_sum (fun _ _ => Nat.zero_le _) _ (List.mem_map.2 ⟨x, hx, rfl⟩)
    have := hroom hfit
    omega
  · obtain ⟨outcome, hok, hanswer⟩ := allocateFrom_answers addressLimit h hsize (by omega) ho
      (List.range' (sizeToPageOrder size) (numOfFreeList - sizeToPageOrder size)) (by
        intro o ho'
        have := sizeToPageOrder_lt size
        rw [List.mem_range'_1] at ho'
        omega)
    refine ⟨outcome, hok, hanswer.mono addressLimit fun x hx _ address hfit => ?_⟩
    have hmono := sizeToPageOrder_mono (hroom hfit)
    have hlt := sizeToPageOrder_lt (sizeOf a x)
    rw [List.mem_range'_1]
    omega

end Search

/-- A free entry contains a range of the size that begins at a multiple of `2 ^ alignOrder` and ends
below the limit. -/
def HasRange (a : MemoryAllocator) (size alignOrder addressLimit : Nat) : Prop :=
  ∃ i, IsEntry a i ∧ ∃ address, 2 ^ alignOrder ∣ address ∧ (a.pool i).start ≤ address ∧
    address + size - 1 ≤ (a.pool i).stop ∧ address + size - 1 < addressLimit

theorem hasRange_iff {a : MemoryAllocator} {chain : List Nat} {lists : Nat → List Nat}
    (h : Rep a chain lists) {size alignOrder addressLimit : Nat} (hsize : 0 < size)
    (hlimit : 0 < addressLimit) : HasRange a size alignOrder addressLimit ↔
      ∃ x ∈ chain, ∃ address, Fits (a.pool x) size alignOrder addressLimit address := by
  constructor
  · rintro ⟨i, hi, address, hdvd, hstart, hstop, hbelow⟩
    exact ⟨i, (h.addressChain.mem i).2 hi, address, hdvd, hstart, by omega, by omega⟩
  · rintro ⟨x, hx, address, hfit⟩
    have hstop := hfit.le_stop
    have hbelow := hfit.below
    exact ⟨x, (h.addressChain.mem x).1 hx, address, hfit.aligned, hfit.start_le, by omega, by omega⟩

/-- In every state that a run of handled requests reaches, `allocate_below` fails with `NoMemory`
exactly when no free entry has a range for it, and with `NoEntry` only when every entry of the pool
is in use. -/
theorem allocation_complete {labels : List (Request × Reply)} {a : MemoryAllocator}
    (h : Run Initial (Step InBoundsHandled) labels a) (size alignOrder addressLimit : Nat)
    (hsize : 0 < size) (ho : alignOrder < 48) (hlimit : 0 < addressLimit) :
    ∃ result b, allocateBelow a size alignOrder addressLimit = .ok (result, b) ∧
      (result = .error .noMemory ↔ ¬HasRange a size alignOrder addressLimit) ∧
      (result = .error .noEntry → ∀ i < poolSize, (a.pool i).enabled) := by
  obtain ⟨chain, lists, hrep⟩ := wellFormed_of_run_handled h
  obtain ⟨⟨result, b⟩, hok, hanswer⟩ :=
    allocateWithAddressLimit_answers addressLimit hrep hsize (show alignOrder < 64 by omega)
  refine ⟨result, b, hok, ?_⟩
  rw [hasRange_iff hrep hsize hlimit]
  cases hanswer with
  | none hnone =>
    refine ⟨⟨fun _ => ?_, fun _ => rfl⟩, nofun⟩
    rintro ⟨x, hx, address, hfit⟩
    exact hnone x hx trivial address hfit
  | full hx hfit hfull =>
    exact ⟨⟨nofun, fun hnone => (hnone ⟨_, hx, _, hfit⟩).elim⟩, fun _ => hrep.full_of_length hfull⟩
  | taken hx hfit => exact ⟨⟨nofun, fun hnone => (hnone ⟨_, hx, _, hfit⟩).elim⟩, nofun⟩

/-- One free page at 4 KiB, of which no byte is at a multiple of 8 KiB. -/
theorem allocation_complete_unaligned : ∃ a result b, Run Initial (Step InBoundsHandled)
      [(.free 0x1000 0x1000, .ok none)] a ∧
    allocateBelow a 0x800 13 0x100000000 = .ok (result, b) ∧ result = .error .noMemory ∧
    ¬HasRange a 0x800 13 0x100000000 := by
  have h₀ : Run Initial (Step InBoundsHandled) [] MemoryAllocator.new := .start rfl
  have h₁ := run_request h₀ (.free 0x1000 0x1000) (.ok none)
    ⟨by decide, by decide, .apart (disjoint_of_stop_lt (by decide +kernel))⟩ (by decide +kernel)
  obtain ⟨result, b, hok, hiff, -⟩ :=
    allocation_complete h₁ 0x800 13 0x100000000 (by decide) (by decide) (by decide)
  have hfail : (allocateBelow (after MemoryAllocator.new (.free 0x1000 0x1000)) 0x800 13
      0x100000000).map Prod.fst = .ok (.error .noMemory) := by decide +kernel
  rw [hok] at hfail
  have hresult : result = .error .noMemory := Except.ok.inj hfail
  exact ⟨_, result, b, h₁, hok, hresult, hiff.1 hresult⟩

/-! ## Overlapping frees -/

/-- Requests within physical memory. A freed range may be free already. -/
def InMemory : Request → Prop
  | .free start size => 0 < size ∧ start + size ≤ physicalLimit
  | .allocate _ alignOrder => alignOrder < 48
  | .allocateBelow _ alignOrder addressLimit => alignOrder < 48 ∧ 0 < addressLimit
  | .reserve start size alignOrder => 0 < size ∧ start + size ≤ physicalLimit ∧ alignOrder < 48

instance (request : Request) : Decidable (InMemory request) := by
  cases request <;> unfold InMemory <;> infer_instance

/-- The replies to a list of requests and the state behind them. -/
def replay (a : MemoryAllocator) : List Request → Except Fault (List Reply × MemoryAllocator)
  | [] => .ok ([], a)
  | request :: requests => do
    let (reply, a) ← exec a request
    let (replies, a) ← replay a requests
    return (reply :: replies, a)

theorem run_replay {requests : List Request} : ∀ {labels : List (Request × Reply)}
    {a b : MemoryAllocator} {replies : List Reply}, Run Initial (Step fun _ => InMemory) labels a →
    (∀ request ∈ requests, InMemory request) → replay a requests = .ok (replies, b) →
    Run Initial (Step fun _ => InMemory) (labels ++ requests.zip replies) b := by
  induction requests with
  | nil =>
    intro labels a b replies h _ hok
    cases hok
    rw [List.zip_nil_left, List.append_nil]
    exact h
  | cons request requests ih =>
    intro labels a b replies h hin hok
    obtain ⟨⟨reply, c⟩, hexec, hok⟩ := bind_eq_ok.1 hok
    obtain ⟨⟨rest, d⟩, hreplay, hok⟩ := bind_eq_ok.1 hok
    cases hok
    have hnext := h.next (show Step (fun _ => InMemory) a (request, reply) c from
      ⟨hin request List.mem_cons_self, hexec⟩)
    have hrun := ih hnext (fun r hr => hin r (List.mem_cons_of_mem _ hr)) hreplay
    rwa [List.append_assoc] at hrun

/-- Frees and reservations after which a deleted entry is still linked in the chain. The free of
`0x3000` to `0x57ff` overlaps the entry at `0x5000`, and the one of `0x4000` to `0x6fff` merges this
entry into the one before it and then links the new entry to it. The free of `0x4900` to `0x4fff`
grows the deleted entry, which holds `0x1000` bytes that `free_size` does not count. -/
def overlappingFrees : List Request :=
  [.free 0x1000 0x800, .free 0x2000 0x800, .free 0x5000 0x1000, .reserve 0x1000 0x800 0,
    .reserve 0x2000 0x800 0, .free 0x3000 0x2800, .reserve 0x5000 0x800 0, .free 0x4000 0x3000,
    .reserve 0x3000 0x3000 0, .reserve 0x4800 0x2800 0, .free 0x4900 0x700, .allocate 0xf00 0]

/-- After these requests the entry at `0x4000` has `0x800` free bytes, and `allocate_below` finds no
memory for them. -/
theorem allocation_misses_entry : ∃ a b, Run Initial (Step fun _ => InMemory)
      (overlappingFrees.zip (List.replicate 11 (.ok none) ++ [.ok (some 0x4900)])) a ∧
    HasRange a 0x800 0 0x100000000 ∧
    allocateBelow a 0x800 0 0x100000000 = .ok (.error .noMemory, b) := by
  have hreplies : (replay MemoryAllocator.new overlappingFrees).map Prod.fst =
      .ok (List.replicate 11 (.ok none) ++ [.ok (some 0x4900)]) := by decide +kernel
  -- The entry at `0x4000`, and the answer to the request.
  have hstate : (replay MemoryAllocator.new overlappingFrees).map (fun o =>
      ((o.2.pool 1).enabled, rangeAt o.2 1,
        (allocateBelow o.2 0x800 0 0x100000000).map Prod.fst)) =
      .ok (true, (0x4000, 0x47ff), .ok (.error .noMemory)) := by decide +kernel
  obtain ⟨a, hok⟩ := exists_of_map_fst hreplies
  rw [hok] at hstate
  simp only [Except.map, Except.ok.injEq, Prod.mk.injEq] at hstate
  obtain ⟨henabled, hrange, hanswer⟩ := hstate
  obtain ⟨b, hfail⟩ := exists_of_map_fst hanswer
  have hstart : (a.pool 1).start = 0x4000 := congrArg Prod.fst hrange
  have hstop : (a.pool 1).stop = 0x47ff := congrArg Prod.snd hrange
  refine ⟨a, b, run_replay (.start rfl) (by decide) hok, ?_, hfail⟩
  exact ⟨1, ⟨by decide, henabled⟩, 0x4000, by decide, by omega, by omega, by decide⟩

end MiniVisor.Allocator
