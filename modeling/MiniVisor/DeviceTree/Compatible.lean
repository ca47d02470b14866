import MiniVisor.Lib.Slice

/-!
# Compatible strings

`_is_device_compatible` of `dtb.rs`. The value of the property is a list of bytes, and a read behind
its end is a fault. The loop takes fuel; `isDeviceCompatible_eq` says that it ends with the answer
for the strings that are stored.
-/

set_option autoImplicit false

namespace MiniVisor.DeviceTree

open MiniVisor.Lib

/-- The loop over the bytes of a string, from a position in the property. It ends behind the last
byte, or at the first byte that differs. -/
def matchFrom (info : List UInt8) : List UInt8 → Nat → Except Fault (Bool × Nat)
  | [], p => .ok (true, p)
  | c :: rest, p => do
    let b ← index info p
    if b ≠ c then return (false, p) else matchFrom info rest (p + 1)

/-- The loop over the property. With `skip` it looks for the end of a string. -/
def isDeviceCompatibleLoop (info compatible : List UInt8) : Nat → Nat → Bool → Except Fault Bool
  | 0, _, _ => .error .outOfFuel
  | fuel + 1, p, skip =>
    if p < info.length then
      if skip = true then do
        let b ← index info p
        isDeviceCompatibleLoop info compatible fuel (p + 1) (b != 0)
      else do
        let (found, p) ← matchFrom info (compatible ++ [0]) p
        if found = true then return true else isDeviceCompatibleLoop info compatible fuel p true
    else return false

/-- `_is_device_compatible`. -/
def isDeviceCompatible (info compatible : List UInt8) : Except Fault Bool :=
  isDeviceCompatibleLoop info compatible (2 * info.length + 1) 0 false

/-- How a list of strings is stored. -/
def stored (strings : List (List UInt8)) : List UInt8 := strings.flatMap fun s => s ++ [0]

variable {info c s before after : List UInt8}

/-- The comparison with a stored string. It does not get behind the string, and it succeeds on the
same string only. -/
theorem matchFrom_eq (hc : 0 ∉ c) :
    ∀ {s before : List UInt8}, 0 ∉ s → info = before ++ (s ++ 0 :: after) →
      (c = s ∧ ∃ p, matchFrom info (c ++ [0]) before.length = .ok (true, p)) ∨
        (c ≠ s ∧ ∃ same rest, s = same ++ rest ∧
          matchFrom info (c ++ [0]) before.length = .ok (false, (before ++ same).length)) := by
  induction c with
  | nil =>
    intro s before hs hinfo
    -- The end of the string that is looked for is compared with the next byte of the stored one.
    cases s with
    | nil =>
      refine .inl ⟨rfl, before.length + 1, ?_⟩
      rw [List.nil_append, matchFrom, hinfo, List.nil_append, index_append]
      rfl
    | cons b s =>
      refine .inr ⟨(List.cons_ne_nil _ _).symm, [], b :: s, rfl, ?_⟩
      have hb : b ≠ 0 := fun h => hs (h ▸ List.mem_cons_self)
      rw [List.nil_append, matchFrom, hinfo, List.cons_append, index_append, ok_bind, if_pos hb,
        List.append_nil]
      rfl
  | cons x c ih =>
    intro s before hs hinfo
    have hx : x ≠ 0 := fun h => hc (h ▸ List.mem_cons_self)
    cases s with
    | nil =>
      refine .inr ⟨List.cons_ne_nil _ _, [], [], rfl, ?_⟩
      rw [List.cons_append, matchFrom, hinfo, List.nil_append, index_append, ok_bind,
        if_pos hx.symm, List.append_nil]
      rfl
    | cons b s =>
      have hread : index info before.length = .ok b := by
        rw [hinfo, List.cons_append, index_append]
      rw [List.cons_append, matchFrom, hread, ok_bind]
      by_cases hb : b = x
      · subst hb
        rw [if_neg (not_not.2 rfl)]
        have hnext : info = (before ++ [b]) ++ (s ++ 0 :: after) := by
          rw [hinfo, List.append_assoc]
          rfl
        have hlength : (before ++ [b]).length = before.length + 1 := List.length_append
        rcases ih (fun h => hc (List.mem_cons_of_mem _ h)) (fun h => hs (List.mem_cons_of_mem _ h))
          hnext with ⟨hsame, p, hmatch⟩ | ⟨hother, same, rest, hs', hmatch⟩
        · rw [hlength] at hmatch
          exact .inl ⟨congrArg _ hsame, p, hmatch⟩
        · rw [hlength, List.append_assoc] at hmatch
          exact .inr ⟨fun h => hother (List.cons.inj h).2, b :: same, rest, congrArg _ hs', hmatch⟩
      · rw [if_pos hb]
        refine .inr ⟨fun h => hb (List.cons.inj h).1.symm, [], b :: s, rfl, ?_⟩
        rw [List.append_nil]
        rfl

/-- From inside a string the loop skips to the start of the next. -/
theorem isDeviceCompatibleLoop_skip (c : List UInt8) (fuel : Nat) :
    ∀ {s before : List UInt8}, 0 ∉ s → info = before ++ (s ++ 0 :: after) →
      isDeviceCompatibleLoop info c (fuel + s.length + 1) before.length true =
        isDeviceCompatibleLoop info c fuel (before ++ (s ++ [0])).length false := by
  intro s
  induction s with
  | nil =>
    intro before _ hinfo
    have hlt : before.length < info.length := by
      rw [hinfo, List.length_append]
      exact Nat.lt_add_of_pos_right (Nat.zero_lt_succ _)
    have hread : index info before.length = .ok 0 := by
      rw [hinfo, List.nil_append, index_append]
    rw [List.length_nil, Nat.add_zero, isDeviceCompatibleLoop, if_pos hlt, if_pos rfl, hread,
      ok_bind]
    rw [List.nil_append, List.length_append]
    rfl
  | cons b s ih =>
    intro before hs hinfo
    have hlt : before.length < info.length := by
      rw [hinfo, List.length_append]
      exact Nat.lt_add_of_pos_right (Nat.zero_lt_succ _)
    have hread : index info before.length = .ok b := by
      rw [hinfo, List.cons_append, index_append]
    have hb : (b != 0) = true := bne_iff_ne.2 fun h => hs (h ▸ List.mem_cons_self)
    have hnext : info = (before ++ [b]) ++ (s ++ 0 :: after) := by
      rw [hinfo, List.append_assoc]
      rfl
    have hrest := ih (fun h => hs (List.mem_cons_of_mem _ h)) hnext
    have hlength : (before ++ [b]).length = before.length + 1 := List.length_append
    rw [List.append_assoc, hlength] at hrest
    rw [List.length_cons, isDeviceCompatibleLoop, if_pos hlt, if_pos rfl, hread, ok_bind, hb]
    exact hrest

/-- From the start of a string the loop ends with the answer for the strings from there on. -/
theorem isDeviceCompatibleLoop_eq (hc : 0 ∉ c) (strings : List (List UInt8)) :
    ∀ {before : List UInt8} {fuel : Nat}, (∀ s ∈ strings, 0 ∉ s) →
      info = before ++ stored strings → 2 * (stored strings).length < fuel →
      isDeviceCompatibleLoop info c fuel before.length false = .ok (decide (c ∈ strings)) := by
  induction strings with
  | nil =>
    intro before fuel _ hinfo hfuel
    obtain ⟨fuel, rfl⟩ := Nat.exists_eq_succ_of_ne_zero (Nat.ne_zero_of_lt hfuel)
    have hend : ¬before.length < info.length := by
      rw [hinfo, show stored [] = [] from rfl, List.append_nil]
      exact Nat.lt_irrefl _
    rw [isDeviceCompatibleLoop, if_neg hend, decide_eq_false List.not_mem_nil]
    rfl
  | cons s strings ih =>
    intro before fuel hstrings hinfo hfuel
    have hs : 0 ∉ s := hstrings s List.mem_cons_self
    have hstored : stored (s :: strings) = s ++ 0 :: stored strings := by
      rw [stored, List.flatMap_cons, List.append_assoc]
      rfl
    rw [hstored] at hinfo hfuel
    rw [List.length_append, List.length_cons] at hfuel
    obtain ⟨fuel, rfl⟩ := Nat.exists_eq_succ_of_ne_zero (Nat.ne_zero_of_lt hfuel)
    have hlt : before.length < info.length := by
      rw [hinfo, List.length_append, List.length_append, List.length_cons]
      omega
    rw [isDeviceCompatibleLoop, if_pos hlt, if_neg Bool.false_ne_true]
    rcases matchFrom_eq hc hs hinfo with ⟨hsame, p, hmatch⟩ | ⟨hother, same, rest, hsplit, hmatch⟩
    · rw [hmatch, ok_bind, decide_eq_true (hsame ▸ List.mem_cons_self)]
      rfl
    · rw [hmatch, ok_bind]
      dsimp only
      rw [if_neg Bool.false_ne_true]
      -- The comparison stopped in this string, and the rest of it is skipped.
      have hrest : 0 ∉ rest := fun h => hs (hsplit ▸ List.mem_append_right _ h)
      have hinside : info = (before ++ same) ++ (rest ++ 0 :: stored strings) := by
        rw [hinfo, hsplit, List.append_assoc, List.append_assoc]
      have hlength : s.length = same.length + rest.length := by
        rw [hsplit, List.length_append]
      obtain ⟨left, hleft⟩ : ∃ left, fuel = left + rest.length + 1 :=
        ⟨fuel - (rest.length + 1), by omega⟩
      have hnext : (before ++ same) ++ (rest ++ [0]) = before ++ (s ++ [0]) := by
        rw [hsplit, List.append_assoc, List.append_assoc]
      rw [hleft, isDeviceCompatibleLoop_skip c left hrest hinside, hnext]
      have hlast : info = (before ++ (s ++ [0])) ++ stored strings := by
        rw [hinfo, List.append_assoc, List.append_assoc]
        rfl
      rw [ih (fun s' hs' => hstrings s' (List.mem_cons_of_mem _ hs')) hlast (by omega)]
      simp [hother]

/-- **Compatible strings.** For strings that are stored one after the other, the answer is whether
the one that is looked for is among them. No byte behind the property is read. -/
theorem isDeviceCompatible_eq {strings : List (List UInt8)} {compatible : List UInt8}
    (hstrings : ∀ s ∈ strings, 0 ∉ s) (hcompatible : 0 ∉ compatible) :
    isDeviceCompatible (stored strings) compatible = .ok (decide (compatible ∈ strings)) :=
  @isDeviceCompatibleLoop_eq _ compatible hcompatible strings [] _ hstrings rfl (Nat.lt_succ_self _)

/-- Behind a longer string and an empty one. -/
theorem isDeviceCompatible_eq_third :
    isDeviceCompatible (stored [[97, 98], [], [97]]) [97] = .ok true :=
  isDeviceCompatible_eq (by decide) (by decide)

end MiniVisor.DeviceTree
