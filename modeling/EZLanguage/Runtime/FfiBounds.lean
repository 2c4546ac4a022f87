import Mathlib.Algebra.GroupWithZero.Nat
import Mathlib.Algebra.Group.Int.Defs
import EZLanguage.Support.Runs
import EZLanguage.Support.SortedMap
import Mathlib.Data.Set.Basic
import Mathlib.Data.Set.Insert

/-!
# The bounds policy of native memory

The blocks that `os_alloc` hands out stand in a registry, a `std::map` from base addresses to sizes. Every
read and write of native memory is checked against it. Addresses and sizes are naturals, what the
numeric arguments convert to; `none` is an argument that is not a number. What `calloc` answers is part
of a call.
-/

namespace EZLanguage

namespace Ffi

open SortedMap

abbrev Registry := List (Nat × Nat)

/-- One more than the greatest `uintptr_t`. -/
def addressSpace : Nat := 2 ^ 64

/-! ### The registry -/

def ffiTrackAlloc (g_ffiAllocs : Registry) (addr size : Nat) : Registry :=
  if addr = 0 then g_ffiAllocs else assign addr size g_ffiAllocs

def ffiUntrackAlloc (g_ffiAllocs : Registry) (addr : Nat) : Registry × Bool :=
  if g_ffiAllocs.any fun block => block.1 = addr then (erase addr g_ffiAllocs, true)
  else (g_ffiAllocs, false)

/-- The check of an access, or the text of its runtime error. -/
def ffiBoundsCheck (g_ffiAllocs : Registry) (base offset accessSize : Nat) : Except String Unit :=
  let addr := base + offset
  let last := addr + accessSize
  if addressSpace ≤ addr ∨ addressSpace ≤ last then .error "FFI access address overflow"
  else
    match floor addr g_ffiAllocs with
    | none => .ok ()
    | some (blockStart, size) =>
        let blockEnd := (blockStart + size) % addressSpace
        if blockStart ≤ addr ∧ addr < blockEnd then
          if blockEnd < last then .error "FFI out-of-bounds access on managed allocation"
          else .ok ()
        else .ok ()

def ffiClampToBlock (g_ffiAllocs : Registry) (addr requested : Nat) : Nat :=
  match floor addr g_ffiAllocs with
  | none => requested
  | some (blockStart, size) =>
      let blockEnd := (blockStart + size) % addressSpace
      if blockStart ≤ addr ∧ addr < blockEnd then min requested (blockEnd - addr) else requested

/-! ### The builtins -/

/-- `os_alloc`, with the address that `calloc` answers. -/
def os_alloc (g_ffiAllocs : Registry) (size : Option Int) (ptr : Nat) :
    Registry × Except String Nat :=
  match size with
  | none => (g_ffiAllocs, .error "os_alloc: size must be a number")
  | some reqd =>
      if reqd ≤ 0 then (g_ffiAllocs, .error "os_alloc: size must be positive")
      else (ffiTrackAlloc g_ffiAllocs ptr reqd.toNat, .ok ptr)

/-- `os_free`, with the address that is given to `free`, if there is one. -/
def os_free (g_ffiAllocs : Registry) (addr : Option Nat) :
    Registry × Except String (Option Nat) :=
  match addr with
  | none => (g_ffiAllocs, .ok none)
  | some addr =>
      if addr = 0 then (g_ffiAllocs, .ok none)
      else
        match ffiUntrackAlloc g_ffiAllocs addr with
        | (rest, true) => (rest, .ok (some addr))
        | (rest, false) =>
            (rest, .error "os_free: address was not returned by os_alloc (or already freed)")

/-! ### The history of a registry -/

inductive Call
  | os_alloc (size : Option Int) (ptr : Nat)
  | os_free (addr : Option Nat)

/-- A block as what it is: the addresses from its start on. -/
def bytes (start size : Nat) : Set Nat := {a | start ≤ a ∧ a < start + size}

/-- The blocks that are live after a call. -/
def Call.effect (blocks : Set (Nat × Nat)) : Call → Set (Nat × Nat)
  | .os_alloc (some size) ptr =>
      if 0 < size ∧ ptr ≠ 0 then insert (ptr, size.toNat) blocks else blocks
  | .os_alloc none _ => blocks
  | .os_free (some addr) => {block ∈ blocks | block.1 ≠ addr}
  | .os_free none => blocks

/-- The blocks that were allocated in a history and not freed since. -/
def live (history : List Call) : Set (Nat × Nat) := history.foldl Call.effect ∅

/-- What `calloc` promises: a block below the end of the address space that meets no other block. -/
def Grants (blocks : Registry) : Call → Prop
  | .os_alloc (some size) ptr =>
      0 < size → ptr ≠ 0 → ptr + size.toNat < addressSpace ∧
        ∀ block ∈ blocks, ptr + size.toNat ≤ block.1 ∨ block.1 + block.2 ≤ ptr
  | _ => True

/-- A call changes the registry, under the promise of `calloc`. -/
inductive Step : Call → Registry → Registry → Prop
  | os_alloc {g_ffiAllocs : Registry} (size : Option Int) (ptr : Nat)
      (hgrants : Grants g_ffiAllocs (.os_alloc size ptr)) :
      Step (.os_alloc size ptr) g_ffiAllocs (Ffi.os_alloc g_ffiAllocs size ptr).1
  | os_free {g_ffiAllocs : Registry} (addr : Option Nat) :
      Step (.os_free addr) g_ffiAllocs (Ffi.os_free g_ffiAllocs addr).1

/-- A registry that `os_alloc` and `os_free` lead to. -/
def History (history : List Call) (g_ffiAllocs : Registry) : Prop :=
  Runs.Run Step [] history g_ffiAllocs

/-- The blocks of a registry are in order and disjoint, not empty, and end in the address space. -/
structure Disjoint (g_ffiAllocs : Registry) : Prop where
  sorted : Sorted g_ffiAllocs
  positive : ∀ block ∈ g_ffiAllocs, 0 < block.1 ∧ 0 < block.2 ∧ block.1 + block.2 < addressSpace
  apart : ∀ a ∈ g_ffiAllocs, ∀ b ∈ g_ffiAllocs, a = b ∨ a.1 + a.2 ≤ b.1 ∨ b.1 + b.2 ≤ a.1

theorem Disjoint.erase {g_ffiAllocs : Registry} (hdisjoint : Disjoint g_ffiAllocs) (addr : Nat) :
    Disjoint (erase addr g_ffiAllocs) where
  sorted := hdisjoint.sorted.erase addr
  positive := fun block hmem => hdisjoint.positive block ((mem_erase _ _ _).mp hmem).1
  apart := fun a ha b hb =>
    hdisjoint.apart a ((mem_erase _ _ _).mp ha).1 b ((mem_erase _ _ _).mp hb).1

theorem Disjoint.assign {g_ffiAllocs : Registry} (hdisjoint : Disjoint g_ffiAllocs)
    {addr size : Nat} (haddr : 0 < addr) (hsize : 0 < size) (hend : addr + size < addressSpace)
    (hfresh : ∀ block ∈ g_ffiAllocs, addr + size ≤ block.1 ∨ block.1 + block.2 ≤ addr) :
    Disjoint (assign addr size g_ffiAllocs) where
  sorted := hdisjoint.sorted.assign addr size
  positive := by
    intro block hmem
    rcases (mem_assign hdisjoint.sorted addr size block).mp hmem with heq | hold
    · rw [heq]
      exact ⟨haddr, hsize, hend⟩
    · exact hdisjoint.positive block hold.2
  apart := by
    intro a ha b hb
    rcases (mem_assign hdisjoint.sorted addr size a).mp ha with hnewa | holda
    · rcases (mem_assign hdisjoint.sorted addr size b).mp hb with hnewb | holdb
      · exact Or.inl (hnewa.trans hnewb.symm)
      · have h := hfresh b holdb.2
        rw [hnewa]
        exact Or.inr h
    · rcases (mem_assign hdisjoint.sorted addr size b).mp hb with hnewb | holdb
      · have h := hfresh a holda.2
        rw [hnewb]
        exact Or.inr h.symm
      · exact hdisjoint.apart a holda.2 b holdb.2

/-- The registry holds the live blocks. -/
structure Tracks (history : List Call) (g_ffiAllocs : Registry) : Prop where
  disjoint : Disjoint g_ffiAllocs
  mem_iff : ∀ block, block ∈ g_ffiAllocs ↔ block ∈ live history

theorem live_snoc (history : List Call) (call : Call) :
    live (history ++ [call]) = call.effect (live history) := by
  rw [live, live, List.foldl_append, List.foldl_cons, List.foldl_nil]

theorem tracks_alloc {history : List Call} {g_ffiAllocs : Registry}
    (htracks : Tracks history g_ffiAllocs) (size : Option Int) (ptr : Nat)
    (hgrants : Grants g_ffiAllocs (.os_alloc size ptr)) :
    Tracks (history ++ [.os_alloc size ptr]) (os_alloc g_ffiAllocs size ptr).1 := by
  have hlive := live_snoc history (.os_alloc size ptr)
  cases size with
  | none => exact ⟨htracks.disjoint, fun block => by rw [hlive]; exact htracks.mem_iff block⟩
  | some reqd =>
      rw [Call.effect] at hlive
      rw [os_alloc]
      by_cases hpositive : reqd ≤ 0
      · rw [if_neg (by omega)] at hlive
        rw [if_pos hpositive]
        exact ⟨htracks.disjoint, fun block => by rw [hlive]; exact htracks.mem_iff block⟩
      · rw [if_neg hpositive, ffiTrackAlloc]
        by_cases hnull : ptr = 0
        · rw [if_neg (by omega)] at hlive
          rw [if_pos hnull]
          exact ⟨htracks.disjoint, fun block => by rw [hlive]; exact htracks.mem_iff block⟩
        · have hgrant := hgrants (by omega) hnull
          rw [if_pos ⟨by omega, hnull⟩] at hlive
          rw [if_neg hnull]
          refine ⟨htracks.disjoint.assign (by omega) (by omega) hgrant.1 hgrant.2, ?_⟩
          intro block
          rw [hlive, Set.mem_insert_iff, ← htracks.mem_iff,
            mem_assign htracks.disjoint.sorted]
          apply or_congr_right
          apply and_iff_right_of_imp
          intro hmem
          have hfresh := hgrant.2 block hmem
          have hpos := htracks.disjoint.positive block hmem
          omega

/-- `os_free` lets go of the block at the address, which is the address of a block or 0. -/
theorem os_free_some {history : List Call} {g_ffiAllocs : Registry}
    (htracks : Tracks history g_ffiAllocs) (addr : Nat) :
    (os_free g_ffiAllocs (some addr)).1 = erase addr g_ffiAllocs ∧
    (os_free g_ffiAllocs (some addr)).2 =
      if g_ffiAllocs.any fun block => block.1 = addr then .ok (some addr)
      else if addr = 0 then .ok none
      else .error "os_free: address was not returned by os_alloc (or already freed)" := by
  have hkept : (g_ffiAllocs.any fun block => block.1 = addr) = false →
      erase addr g_ffiAllocs = g_ffiAllocs := by
    intro hany
    rw [List.any_eq_false] at hany
    apply List.filter_eq_self.mpr
    intro block hmem
    simpa using hany block hmem
  rw [os_free]
  by_cases hnull : addr = 0
  · have hany : (g_ffiAllocs.any fun block => block.1 = addr) = false := by
      rw [List.any_eq_false]
      intro block hmem
      have hpos := htracks.disjoint.positive block hmem
      simp only [decide_eq_true_eq]
      omega
    rw [if_pos hnull, hkept hany, hany, if_neg (by simp), if_pos hnull]
    exact ⟨rfl, rfl⟩
  · rw [if_neg hnull, ffiUntrackAlloc]
    by_cases hany : (g_ffiAllocs.any fun block => block.1 = addr) = true
    · rw [if_pos hany, if_pos hany]
      exact ⟨rfl, rfl⟩
    · rw [if_neg hany, if_neg hany, if_neg hnull, hkept (Bool.eq_false_iff.mpr hany)]
      exact ⟨rfl, rfl⟩

theorem tracks_free {history : List Call} {g_ffiAllocs : Registry}
    (htracks : Tracks history g_ffiAllocs) (addr : Option Nat) :
    Tracks (history ++ [.os_free addr]) (os_free g_ffiAllocs addr).1 := by
  have hlive := live_snoc history (.os_free addr)
  cases addr with
  | none => exact ⟨htracks.disjoint, fun block => by rw [hlive]; exact htracks.mem_iff block⟩
  | some addr =>
      rw [(os_free_some htracks addr).1]
      refine ⟨htracks.disjoint.erase addr, ?_⟩
      intro block
      rw [hlive, mem_erase, htracks.mem_iff]
      rfl

/-- The registry holds the live blocks, whatever was allocated and freed before. -/
theorem History.tracks {history : List Call} {g_ffiAllocs : Registry}
    (hhistory : History history g_ffiAllocs) : Tracks history g_ffiAllocs := by
  apply Runs.Run.history (I := Tracks) _ _ hhistory
  · refine ⟨⟨sorted_nil, ?_, ?_⟩, ?_⟩
    · simp
    · simp
    · simp [live]
  · intro history call before after _ htracks hstep
    cases hstep with
    | os_alloc size ptr hgrants => exact tracks_alloc htracks size ptr hgrants
    | os_free addr => exact tracks_free htracks addr

/-! ### The policy -/

/-- A block is the floor of the addresses inside it. -/
theorem floor_of_mem_bytes {g_ffiAllocs : Registry} (hdisjoint : Disjoint g_ffiAllocs)
    {block : Nat × Nat} (hmem : block ∈ g_ffiAllocs) {addr : Nat}
    (haddr : addr ∈ bytes block.1 block.2) : floor addr g_ffiAllocs = some block := by
  have hbelow : block.1 ≤ addr ∧ addr < block.1 + block.2 := haddr
  cases hfloor : floor addr g_ffiAllocs with
  | none =>
      have habove := (floor_eq_none_iff hdisjoint.sorted addr).mp hfloor block hmem
      omega
  | some last =>
      have hlast := floor_eq_some hdisjoint.sorted hfloor
      have hle := hlast.2.2 block hmem hbelow.1
      have hsize := hdisjoint.positive last hlast.1
      rcases hdisjoint.apart last hlast.1 block hmem with heq | hleft | hright
      · rw [heq]
      · omega
      · omega

/-- Two live blocks that share an address are one. -/
theorem Disjoint.eq_of_mem {g_ffiAllocs : Registry} (hdisjoint : Disjoint g_ffiAllocs)
    {a b : Nat × Nat} (ha : a ∈ g_ffiAllocs) (hb : b ∈ g_ffiAllocs) {addr : Nat}
    (haddr : addr ∈ bytes a.1 a.2) (hother : addr ∈ bytes b.1 b.2) : a = b := by
  have hfloor := floor_of_mem_bytes hdisjoint ha haddr
  rw [floor_of_mem_bytes hdisjoint hb hother] at hfloor
  exact (Option.some.inj hfloor).symm

theorem ffiBoundsCheck_of_mem {g_ffiAllocs : Registry} (hdisjoint : Disjoint g_ffiAllocs)
    {block : Nat × Nat} (hmem : block ∈ g_ffiAllocs) {base offset : Nat}
    (haddr : base + offset ∈ bytes block.1 block.2) (accessSize : Nat) :
    ffiBoundsCheck g_ffiAllocs base offset accessSize = .ok () ↔
      base + offset + accessSize ≤ block.1 + block.2 := by
  have hbelow : block.1 ≤ base + offset ∧ base + offset < block.1 + block.2 := haddr
  have hblock := hdisjoint.positive block hmem
  have hmod := Nat.mod_eq_of_lt hblock.2.2
  rw [ffiBoundsCheck]
  dsimp only
  rw [floor_of_mem_bytes hdisjoint hmem haddr]
  dsimp only
  rw [hmod, if_pos hbelow]
  by_cases hoverflow : addressSpace ≤ base + offset ∨ addressSpace ≤ base + offset + accessSize
  · rw [if_pos hoverflow]
    apply iff_of_false (fun h => by cases h)
    omega
  · rw [if_neg hoverflow]
    by_cases hrun : block.1 + block.2 < base + offset + accessSize
    · rw [if_pos hrun]
      apply iff_of_false (fun h => by cases h)
      omega
    · rw [if_neg hrun]
      apply iff_of_true rfl
      omega

theorem ffiBoundsCheck_of_raw {g_ffiAllocs : Registry} (hdisjoint : Disjoint g_ffiAllocs)
    {base offset : Nat} (hraw : ∀ block ∈ g_ffiAllocs, base + offset ∉ bytes block.1 block.2)
    (accessSize : Nat) :
    ffiBoundsCheck g_ffiAllocs base offset accessSize = .ok () ↔
      base + offset + accessSize < addressSpace := by
  rw [ffiBoundsCheck]
  dsimp only
  by_cases hoverflow : addressSpace ≤ base + offset ∨ addressSpace ≤ base + offset + accessSize
  · rw [if_pos hoverflow]
    apply iff_of_false (fun h => by cases h)
    omega
  · rw [if_neg hoverflow]
    apply iff_of_true _ (by omega)
    cases hfloor : floor (base + offset) g_ffiAllocs with
    | none => rfl
    | some last =>
        have hlast := floor_eq_some hdisjoint.sorted hfloor
        have houtside := hraw last hlast.1
        dsimp only
        rw [Nat.mod_eq_of_lt (hdisjoint.positive last hlast.1).2.2, if_neg]
        exact houtside

theorem ffiClampToBlock_of_mem {g_ffiAllocs : Registry} (hdisjoint : Disjoint g_ffiAllocs)
    {block : Nat × Nat} (hmem : block ∈ g_ffiAllocs) {addr : Nat}
    (haddr : addr ∈ bytes block.1 block.2) (requested : Nat) :
    ffiClampToBlock g_ffiAllocs addr requested =
      min requested (block.1 + block.2 - addr) := by
  have hbelow : block.1 ≤ addr ∧ addr < block.1 + block.2 := haddr
  rw [ffiClampToBlock, floor_of_mem_bytes hdisjoint hmem haddr]
  dsimp only
  rw [Nat.mod_eq_of_lt (hdisjoint.positive block hmem).2.2, if_pos hbelow]

theorem ffiClampToBlock_le (g_ffiAllocs : Registry) (addr requested : Nat) :
    ffiClampToBlock g_ffiAllocs addr requested ≤ requested := by
  rw [ffiClampToBlock]
  cases floor addr g_ffiAllocs with
  | none => exact Nat.le_refl requested
  | some last =>
      dsimp only
      split
      · exact Nat.min_le_left _ _
      · exact Nat.le_refl requested

/-- The policy is about the address an access starts at: inside a live block it must end there, outside
of all blocks it is raw and only has to fit the address space. -/
structure BoundsPolicy (history : List Call) (g_ffiAllocs : Registry) : Prop where
  accepts : ∀ base offset accessSize,
    ffiBoundsCheck g_ffiAllocs base offset accessSize = .ok () ↔
      base + offset + accessSize < addressSpace ∧
      ∀ block ∈ live history, base + offset ∈ bytes block.1 block.2 →
        base + offset + accessSize ≤ block.1 + block.2
  whole : ∀ base offset accessSize, ∀ block ∈ live history,
    ffiBoundsCheck g_ffiAllocs base offset accessSize = .ok () →
    base + offset ∈ bytes block.1 block.2 →
    ∀ addr ∈ bytes (base + offset) accessSize, addr ∈ bytes block.1 block.2 ∧
      ∀ other ∈ live history, addr ∈ bytes other.1 other.2 → other = block
  clamps : ∀ addr requested,
    (∃ block ∈ live history, addr ∈ bytes block.1 block.2) ∨ addr + requested < addressSpace →
    ffiBoundsCheck g_ffiAllocs addr 0 (ffiClampToBlock g_ffiAllocs addr requested) = .ok ()
  frees : ∀ addr,
    (os_free g_ffiAllocs (some addr)).2 = .ok (some addr) ↔ ∃ size, (addr, size) ∈ live history
  frees_only : ∀ arg addr, (os_free g_ffiAllocs arg).2 = .ok (some addr) → arg = some addr

section Policy

variable {history : List Call} {g_ffiAllocs : Registry} (htracks : Tracks history g_ffiAllocs)

include htracks

theorem Tracks.accepts (base offset accessSize : Nat) :
    ffiBoundsCheck g_ffiAllocs base offset accessSize = .ok () ↔
      base + offset + accessSize < addressSpace ∧
      ∀ block ∈ live history, base + offset ∈ bytes block.1 block.2 →
        base + offset + accessSize ≤ block.1 + block.2 := by
  have hdisjoint := htracks.disjoint
  by_cases hinside : ∃ block ∈ g_ffiAllocs, base + offset ∈ bytes block.1 block.2
  · obtain ⟨block, hmem, haddr⟩ := hinside
    rw [ffiBoundsCheck_of_mem hdisjoint hmem haddr]
    have hend := (hdisjoint.positive block hmem).2.2
    constructor
    · intro hle
      refine ⟨by omega, ?_⟩
      intro other hother haddr'
      rw [← hdisjoint.eq_of_mem hmem ((htracks.mem_iff other).mpr hother) haddr haddr']
      exact hle
    · intro h
      exact h.2 block ((htracks.mem_iff block).mp hmem) haddr
  · have hraw : ∀ block ∈ g_ffiAllocs, base + offset ∉ bytes block.1 block.2 :=
      fun block hmem haddr => hinside ⟨block, hmem, haddr⟩
    rw [ffiBoundsCheck_of_raw hdisjoint hraw]
    apply Iff.symm
    apply and_iff_left
    intro block hlive haddr
    exact absurd haddr (hraw block ((htracks.mem_iff block).mpr hlive))

theorem Tracks.whole (base offset accessSize : Nat) (block : Nat × Nat)
    (hlive : block ∈ live history)
    (hok : ffiBoundsCheck g_ffiAllocs base offset accessSize = .ok ())
    (hstart : base + offset ∈ bytes block.1 block.2) (addr : Nat)
    (haddr : addr ∈ bytes (base + offset) accessSize) :
    addr ∈ bytes block.1 block.2 ∧
      ∀ other ∈ live history, addr ∈ bytes other.1 other.2 → other = block := by
  have hend := ((htracks.accepts base offset accessSize).mp hok).2 block hlive hstart
  have hinside : addr ∈ bytes block.1 block.2 := by
    have hbelow : block.1 ≤ base + offset ∧ base + offset < block.1 + block.2 := hstart
    have haccess : base + offset ≤ addr ∧ addr < base + offset + accessSize := haddr
    show block.1 ≤ addr ∧ addr < block.1 + block.2
    omega
  refine ⟨hinside, ?_⟩
  intro other hother haddr'
  exact htracks.disjoint.eq_of_mem ((htracks.mem_iff other).mpr hother)
    ((htracks.mem_iff block).mpr hlive) haddr' hinside

theorem Tracks.clamps (addr requested : Nat)
    (h : (∃ block ∈ live history, addr ∈ bytes block.1 block.2) ∨
      addr + requested < addressSpace) :
    ffiBoundsCheck g_ffiAllocs addr 0 (ffiClampToBlock g_ffiAllocs addr requested) = .ok () := by
  by_cases hinside : ∃ block ∈ live history, addr ∈ bytes block.1 block.2
  · obtain ⟨block, hlive, haddr⟩ := hinside
    have hmem := (htracks.mem_iff block).mpr hlive
    have hbelow : block.1 ≤ addr ∧ addr < block.1 + block.2 := haddr
    rw [ffiBoundsCheck_of_mem htracks.disjoint hmem haddr,
      ffiClampToBlock_of_mem htracks.disjoint hmem haddr]
    omega
  · have hfits := h.resolve_left hinside
    have hle := ffiClampToBlock_le g_ffiAllocs addr requested
    apply (htracks.accepts _ _ _).mpr
    refine ⟨by omega, ?_⟩
    intro block hlive haddr
    exact absurd ⟨block, hlive, haddr⟩ hinside

theorem Tracks.frees (addr : Nat) :
    (os_free g_ffiAllocs (some addr)).2 = .ok (some addr) ↔
      ∃ size, (addr, size) ∈ live history := by
  rw [(os_free_some htracks addr).2]
  by_cases hany : (g_ffiAllocs.any fun block => block.1 = addr) = true
  · rw [if_pos hany]
    apply iff_of_true rfl
    obtain ⟨block, hmem, haddr⟩ := List.any_eq_true.mp hany
    obtain rfl : block.1 = addr := of_decide_eq_true haddr
    exact ⟨block.2, (htracks.mem_iff block).mp hmem⟩
  · rw [if_neg hany]
    apply iff_of_false
    · split
      · intro h
        cases h
      · intro h
        cases h
    · intro h
      obtain ⟨size, hlive⟩ := h
      apply hany
      apply List.any_eq_true.mpr
      exact ⟨_, (htracks.mem_iff _).mpr hlive, decide_eq_true rfl⟩

theorem Tracks.frees_only (arg : Option Nat) (addr : Nat)
    (hfreed : (os_free g_ffiAllocs arg).2 = .ok (some addr)) : arg = some addr := by
  cases arg with
  | none => cases hfreed
  | some given =>
      rw [(os_free_some htracks given).2] at hfreed
      split at hfreed
      · cases hfreed
        rfl
      · split at hfreed
        · cases hfreed
        · cases hfreed

end Policy

/-- Two blocks of 16 bytes with a gap between them. -/
def twoBlocks : List Call := [.os_alloc (some 16) 4096, .os_alloc (some 16) 8192]

theorem History.alloc {history : List Call} {g_ffiAllocs : Registry}
    (hhistory : History history g_ffiAllocs) (size : Option Int) (ptr : Nat)
    (hgrants : Grants g_ffiAllocs (.os_alloc size ptr)) :
    History (history ++ [.os_alloc size ptr]) (os_alloc g_ffiAllocs size ptr).1 :=
  Runs.Run.snoc hhistory (Step.os_alloc size ptr hgrants)

theorem history_twoBlocks : History twoBlocks [(4096, 16), (8192, 16)] := by
  have hstart : History [] [] := Runs.Run.nil
  have hfirst := hstart.alloc (some 16) 4096 (by simp [Grants, addressSpace])
  exact hfirst.alloc (some 16) 8192
    (by simp [Grants, addressSpace, os_alloc, ffiTrackAlloc, assign])

end Ffi

end EZLanguage
