import EZLanguage.Support.ArrayHeap

/-!
# Keyed hashes

The tasks of the library work on arrays that are passed by reference, so a heap of byte arrays goes
through them. A hash function gives a new array. The definition of the standard is a function of byte
lists; the task computes it and leaves every array it is given as it was.
-/

namespace EZLanguage

open ArrayHeap

namespace Crypto

abbrev Bytes := List UInt8

abbrev ByteHeap := Arrays UInt8

/-- What the tasks are called with. -/
inductive Data where
  | nil
  | string (s : List Char)
  | array (r : Nat)

namespace HMAC

/-- `_toBytes`: an array is given back itself. -/
def toBytes (data : Data) (h : ByteHeap) : Nat × ByteHeap :=
  match data with
  | .nil => h.alloc []
  | .string s =>
      let (res, h) := h.alloc []
      (res, h.pushAll res (s.map fun c => UInt8.ofNat (c.toNat % 256)))
  | .array r => (r, h)

/-- `while len(kBytes) < blockSize { push(kBytes, 0) }`. -/
def padKey (kBytes : Nat) (blockSize : Nat) (h : ByteHeap) : ByteHeap :=
  if (h.read kBytes).length < blockSize then padKey kBytes blockSize (h.push kBytes 0) else h
termination_by blockSize - (h.read kBytes).length
decreasing_by
  simp only [Arrays.push, Arrays.write_read, if_true, List.length_append, List.length_singleton]
  omega

/-- `repeat i = i to i + n - 1`, which fills both pads. -/
def fillPads (kBytes oKeyPad iKeyPad : Nat) : Nat → Nat → ByteHeap → ByteHeap
  | _, 0, h => h
  | i, n + 1, h =>
      let h := h.push oKeyPad ((h.read kBytes).getD i 0 ^^^ 0x5C)
      let h := h.push iKeyPad ((h.read kBytes).getD i 0 ^^^ 0x36)
      fillPads kBytes oKeyPad iKeyPad (i + 1) n h

/-- A call of a hash function. -/
def callHash (hashFn : Bytes → Bytes) (data : Nat) (h : ByteHeap) : Nat × ByteHeap :=
  h.alloc (hashFn (h.read data))

def conditionKey (hashFn : Bytes → Bytes) (kBytes : Nat) (blockSize : Nat) (h : ByteHeap) :
    Nat × ByteHeap :=
  let (kBytes, h) :=
    if (h.read kBytes).length > blockSize then callHash hashFn kBytes h else (kBytes, h)
  (kBytes, padKey kBytes blockSize h)

/-- A hash of two arrays one after the other. -/
def hashBoth (hashFn : Bytes → Bytes) (first second : Nat) (h : ByteHeap) : Nat × ByteHeap :=
  let (data, h) := h.alloc []
  let h := h.pushAll data (h.read first)
  let h := h.pushAll data (h.read second)
  callHash hashFn data h

def raw (keyData msgData : Data) (hashFn : Bytes → Bytes) (blockSize : Nat) (h : ByteHeap) :
    Nat × ByteHeap :=
  let (kBytes, h) := h.alloc []
  let (key, h) := toBytes keyData h
  let h := h.pushAll kBytes (h.read key)
  let (mBytes, h) := toBytes msgData h
  let (kBytes, h) := conditionKey hashFn kBytes blockSize h
  let (oKeyPad, h) := h.alloc []
  let (iKeyPad, h) := h.alloc []
  let h := fillPads kBytes oKeyPad iKeyPad 0 blockSize h
  let (innerHash, h) := hashBoth hashFn iKeyPad mBytes h
  hashBoth hashFn oKeyPad innerHash h

/-! ### The definition of the standard -/

/-- The key of exactly one block. -/
def blockKey (hash : Bytes → Bytes) (blockSize : Nat) (key : Bytes) : Bytes :=
  let key := if key.length > blockSize then hash key else key
  key ++ List.replicate (blockSize - key.length) 0

/-- `H((K' xor opad) || H((K' xor ipad) || message))`. -/
def hmac (hash : Bytes → Bytes) (blockSize : Nat) (key message : Bytes) : Bytes :=
  let opad := List.replicate blockSize 0x5C
  let ipad := List.replicate blockSize 0x36
  let key := blockKey hash blockSize key
  hash (List.zipWith (· ^^^ ·) key opad ++ hash (List.zipWith (· ^^^ ·) key ipad ++ message))

/-! ### What the tasks make -/

/-- A task gives an array of its own with these bytes, and changes no array there was. -/
structure Makes (h : ByteHeap) (result : Nat × ByteHeap) (bytes : Bytes) : Prop where
  fresh : h.next ≤ result.1
  made : result.1 < result.2.next
  read : result.2.read result.1 = bytes
  frame : Arrays.Frame (fun _ => False) h result.2

theorem padKey_eq (kBytes : Nat) (blockSize : Nat) (h : ByteHeap) :
    padKey kBytes blockSize h =
      h.write kBytes (h.read kBytes ++ List.replicate (blockSize - (h.read kBytes).length) 0) := by
  induction h using padKey.induct kBytes blockSize with
  | case1 h hlt ih =>
      rw [padKey, if_pos hlt, ih]
      have hcount : blockSize - (h.read kBytes).length =
          blockSize - ((h.read kBytes).length + 1) + 1 := by omega
      simp [Arrays.push, hcount, List.replicate_succ]
  | case2 h hge =>
      rw [padKey, if_neg hge, Nat.sub_eq_zero_of_le (Nat.not_lt.mp hge), List.replicate_zero,
        List.append_nil, Arrays.write_self]

theorem fillPads_eq {kBytes oKeyPad iKeyPad : Nat} (hko : kBytes ≠ oKeyPad) (hki : kBytes ≠ iKeyPad)
    (hoi : oKeyPad ≠ iKeyPad) (i n : Nat) (h : ByteHeap) (hlength : i + n ≤ (h.read kBytes).length) :
    fillPads kBytes oKeyPad iKeyPad i n h =
      (h.write oKeyPad (h.read oKeyPad ++ (((h.read kBytes).drop i).take n).map (· ^^^ 0x5C))).write
        iKeyPad (h.read iKeyPad ++ (((h.read kBytes).drop i).take n).map (· ^^^ 0x36)) := by
  induction n generalizing i h with
  | zero =>
      have hself : h.write oKeyPad (h.read oKeyPad) = h := Arrays.write_self h oKeyPad
      simp [fillPads, hself, Arrays.write_self]
  | succ n ih =>
      have hi : i < (h.read kBytes).length := by omega
      rw [fillPads]
      rw [ih (i + 1) _ (by simpa [Arrays.push, hko, hki] using by omega)]
      have hdrop : (h.read kBytes).drop i = (h.read kBytes).getD i 0 :: (h.read kBytes).drop (i + 1) := by
        rw [List.getD_eq_getElem?_getD, List.getElem?_eq_getElem hi, Option.getD_some,
          List.drop_eq_getElem_cons hi]
      rw [hdrop]
      ext1
      · rfl
      · funext q
        by_cases hqi : q = iKeyPad
        · simp [Arrays.push, hqi, hko, hki, hoi, hoi.symm]
        · by_cases hqo : q = oKeyPad
          · simp [Arrays.push, hqo, hko, hki, hoi]
          · simp [Arrays.push, hqi, hqo]

/-- Conditioning makes the key of one block, on an array of the task's own. -/
theorem conditionKey_makes {hashFn : Bytes → Bytes} {kBytes : Nat} {blockSize : Nat}
    {h₀ h : ByteHeap} {key : Bytes} (hframe : Arrays.Frame (fun _ => False) h₀ h)
    (hfresh : h₀.next ≤ kBytes) (hmade : kBytes < h.next) (hkey : h.read kBytes = key) :
    Makes h₀ (conditionKey hashFn kBytes blockSize h) (blockKey hashFn blockSize key) := by
  have hwrite : ∀ (r : Nat) (h : ByteHeap) (bytes : Bytes), h₀.next ≤ r →
      Arrays.Frame (fun _ => False) h₀ h → Arrays.Frame (fun _ => False) h₀ (h.write r bytes) := by
    intro r h bytes hr hframe
    refine ⟨hframe.next, fun q hq hown => ?_⟩
    rw [Arrays.write_read, if_neg (by omega)]
    exact hframe.read q hq hown
  unfold conditionKey blockKey
  by_cases hlong : (h.read kBytes).length > blockSize
  · have hframe' := hframe.trans (Arrays.Frame.alloc h (hashFn (h.read kBytes)))
    have hlong' : key.length > blockSize := hkey ▸ hlong
    simp only [if_pos hlong', callHash, padKey_eq, Arrays.alloc_fst, Arrays.alloc_read, if_true,
      hkey]
    refine ⟨hframe.next, Nat.lt_succ_self _, ?_, ?_⟩
    · simp
    · rw [hkey] at hframe'
      exact hwrite _ _ _ hframe.next hframe'
  · have hlong' : ¬key.length > blockSize := hkey ▸ hlong
    simp only [if_neg hlong', padKey_eq, hkey]
    exact ⟨hfresh, hmade, by simp, hwrite _ _ _ hfresh hframe⟩

/-- The hash of two arrays that are there. -/
theorem hashBoth_makes {hashFn : Bytes → Bytes} {first second : Nat} {h : ByteHeap}
    (hfirst : first < h.next) (hsecond : second < h.next) :
    Makes h (hashBoth hashFn first second h) (hashFn (h.read first ++ h.read second)) := by
  have hf : first ≠ h.next := Nat.ne_of_lt hfirst
  have hs : second ≠ h.next := Nat.ne_of_lt hsecond
  unfold hashBoth callHash
  simp only [Arrays.pushAll_eq, Arrays.alloc_fst, Arrays.alloc_read, Arrays.write_read, if_true, if_neg hf, if_neg hs,
    Arrays.write_write, List.nil_append]
  refine ⟨?_, ?_, ?_, ?_⟩
  · simp
  · simp
  · simp
  · refine ⟨?_, fun q hq _ => ?_⟩
    · simp only [Arrays.alloc_next, Arrays.write_next]
      omega
    · have hq₁ : q ≠ h.next := by omega
      have hq₂ : q ≠ h.next + 1 := by omega
      simp [hq₁, hq₂]

/-- The two pads, on arrays of their own. -/
theorem fillPads_pads {kBytes : Nat} {h : ByteHeap} {blockSize : Nat} (hmade : kBytes < h.next)
    (hlength : (h.read kBytes).length = blockSize) :
    fillPads kBytes h.next (h.next + 1) 0 blockSize ((h.alloc []).2.alloc []).2 =
      (((h.alloc ((h.read kBytes).map (· ^^^ 0x5C))).2).alloc
        ((h.read kBytes).map (· ^^^ 0x36))).2 := by
  have hk : kBytes ≠ h.next := Nat.ne_of_lt hmade
  have hk' : kBytes ≠ h.next + 1 := by omega
  have hread : ((h.alloc []).2.alloc []).2.read kBytes = h.read kBytes := by
    simp [hk, hk']
  rw [fillPads_eq hk hk' (Nat.ne_of_lt (Nat.lt_succ_self _)) 0 blockSize _
    (by simp [hk, hk', hlength]), hread, List.drop_zero,
    List.take_of_length_le (Nat.le_of_eq hlength)]
  ext1
  · rfl
  · funext q
    by_cases hq : q = h.next
    · simp [hq]
    · by_cases hq' : q = h.next + 1
      · simp [hq']
      · simp [hq, hq']

theorem blockKey_length {hash : Bytes → Bytes} {blockSize : Nat}
    (hdigest : ∀ data, (hash data).length ≤ blockSize) (key : Bytes) :
    (blockKey hash blockSize key).length = blockSize := by
  unfold blockKey
  simp only [List.length_append, List.length_replicate]
  split
  · have := hdigest key
    omega
  · omega

theorem zipWith_replicate (f : UInt8 → UInt8 → UInt8) (key : Bytes) (b : UInt8) :
    List.zipWith f key (List.replicate key.length b) = key.map (f · b) := by
  induction key with
  | nil => rfl
  | cons k key ih => simp [List.replicate_succ, ih]

/-- One after the other, both may be read. -/
theorem Makes.trans {h : ByteHeap} {first second : Nat × ByteHeap} {bytes bytes' : Bytes}
    (hfirst : Makes h first bytes) (hsecond : Makes first.2 second bytes') : Makes h second bytes' where
  fresh := Nat.le_trans hfirst.frame.next hsecond.fresh
  made := hsecond.made
  read := hsecond.read
  frame := hfirst.frame.trans hsecond.frame

theorem Makes.read_old {h : ByteHeap} {result : Nat × ByteHeap} {bytes : Bytes}
    (hmakes : Makes h result bytes) {q : Nat} (hq : q < h.next) : result.2.read q = h.read q :=
  hmakes.frame.read q hq id

/-- A keyed hash of two arrays that are there. -/
theorem raw_makes {hashFn : Bytes → Bytes} {blockSize : Nat}
    (hdigest : ∀ data, (hashFn data).length ≤ blockSize) {h : ByteHeap} {key msg : Nat}
    (hkey : key < h.next) (hmsg : msg < h.next) :
    Makes h (raw (.array key) (.array msg) hashFn blockSize h)
      (hmac hashFn blockSize (h.read key) (h.read msg)) := by
  have hk : key ≠ h.next := Nat.ne_of_lt hkey
  have hframe : Arrays.Frame (fun _ => False) h ((h.alloc []).2.write h.next (h.read key)) := by
    refine ⟨Nat.le_succ _, fun q hq _ => ?_⟩
    rw [Arrays.write_read, if_neg (Nat.ne_of_lt hq), Arrays.alloc_read, if_neg (Nat.ne_of_lt hq)]
  have hcondition := @conditionKey_makes hashFn h.next blockSize _ _ _
    hframe (Nat.le_refl _) (Nat.lt_succ_self _) (by rw [Arrays.write_read, if_pos rfl])
  have hraw : raw (.array key) (.array msg) hashFn blockSize h =
      let c := conditionKey hashFn h.next blockSize ((h.alloc []).2.write h.next (h.read key))
      let h₃ := fillPads c.1 c.2.next (c.2.next + 1) 0 blockSize ((c.2.alloc []).2.alloc []).2
      let inner := hashBoth hashFn (c.2.next + 1) msg h₃
      hashBoth hashFn c.2.next inner.1 inner.2 := by
    simp [raw, toBytes, hk]
  rw [hraw]
  generalize conditionKey hashFn h.next blockSize ((h.alloc []).2.write h.next (h.read key)) = c
    at hcondition ⊢
  have hlength : (c.2.read c.1).length = blockSize := by
    rw [hcondition.read]
    exact blockKey_length hdigest _
  have hmsg' : msg < c.2.next := Nat.lt_of_lt_of_le hmsg hcondition.frame.next
  simp only [fillPads_pads hcondition.made hlength]
  -- the pads lie at the next two references
  have hpads : Makes c.2 (c.2.alloc ((c.2.read c.1).map (· ^^^ 0x5C))) ((c.2.read c.1).map (· ^^^ 0x5C)) :=
    ⟨Nat.le_refl _, Nat.lt_succ_self _, by simp, Arrays.Frame.alloc _ _⟩
  have hpads' : Makes (c.2.alloc ((c.2.read c.1).map (· ^^^ 0x5C))).2
      ((c.2.alloc ((c.2.read c.1).map (· ^^^ 0x5C))).2.alloc ((c.2.read c.1).map (· ^^^ 0x36)))
      ((c.2.read c.1).map (· ^^^ 0x36)) :=
    ⟨Nat.le_refl _, Nat.lt_succ_self _, by simp, Arrays.Frame.alloc _ _⟩
  have hboth := hpads.trans hpads'
  generalize hh : (c.2.alloc ((c.2.read c.1).map (· ^^^ 0x5C))).2.alloc
    ((c.2.read c.1).map (· ^^^ 0x36)) = pads at hboth hpads' ⊢
  have hopad : pads.2.read c.2.next = (c.2.read c.1).map (· ^^^ 0x5C) := by
    rw [hpads'.read_old (Nat.lt_succ_self _)]
    simp
  have hipad : pads.2.read (c.2.next + 1) = (c.2.read c.1).map (· ^^^ 0x36) := by
    have := hpads'.read
    rwa [← hh] at this ⊢
  have hnext : c.2.next + 1 < pads.2.next := by
    rw [← hh]
    exact Nat.lt_succ_self _
  have hmsgs : pads.2.read msg = h.read msg := by
    rw [hboth.read_old hmsg', hcondition.read_old hmsg]
  have hinner := @hashBoth_makes hashFn _ _ _ hnext (Nat.lt_of_lt_of_le hmsg' hboth.frame.next)
  rw [hipad, hmsgs] at hinner
  have hfirst : c.2.next < (hashBoth hashFn (c.2.next + 1) msg pads.2).2.next :=
    Nat.lt_of_lt_of_le (by omega) hinner.frame.next
  have houter := @hashBoth_makes hashFn _ _ _ hfirst hinner.made
  rw [hinner.read, hinner.read_old (by omega), hopad] at houter
  have hall := hcondition.trans (hboth.trans (hinner.trans houter))
  rw [hcondition.read] at hall
  have hpad := zipWith_replicate (· ^^^ ·) (blockKey hashFn blockSize (h.read key))
  rw [blockKey_length hdigest] at hpad
  unfold hmac
  simp only [hpad]
  exact hall

end HMAC

end Crypto

end EZLanguage
