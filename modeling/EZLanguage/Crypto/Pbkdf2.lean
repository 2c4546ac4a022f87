import Mathlib.Algebra.GroupWithZero.Nat
import Mathlib.Algebra.Group.Int.Defs
import EZLanguage.Crypto.Hmac

/-!
# Keys derived from passwords

The key is derived block by block: each block is the exclusive-or of the iterates of a keyed hash, and the
last block is cut off. The array of a block is changed in place by the iterations; nothing else is.
-/

namespace EZLanguage

open ArrayHeap

namespace Crypto

namespace PBKDF2

open HMAC

/-- A digest of SHA-256. The native hash is read from a buffer of that many bytes. -/
abbrev Digest := { digest : Bytes // digest.length = 32 }

variable (sha256Bytes : Bytes → Digest)

/-- `HMAC.sha256Bytes`. -/
def hmacSha256 (key message : Data) (h : ByteHeap) : Nat × ByteHeap :=
  raw key message (fun data => (sha256Bytes data).1) 64 h

/-- The bytes of `_int32BE`, where a block index is not negative. -/
def int32BE (i : Nat) : Bytes :=
  [UInt8.ofNat (i >>> 24 &&& 255), UInt8.ofNat (i >>> 16 &&& 255), UInt8.ofNat (i >>> 8 &&& 255),
    UInt8.ofNat (i &&& 255)]

/-- `repeat j = j to j + n - 1`. -/
def xorBlock (uBlock uPrev : Nat) : Nat → Nat → ByteHeap → ByteHeap
  | _, 0, h => h
  | j, n + 1, h =>
      let h := h.set uBlock j ((h.read uBlock).getD j 0 ^^^ (h.read uPrev).getD j 0)
      xorBlock uBlock uPrev (j + 1) n h

/-- The passes of `repeat iter = 2 to iterations`. -/
def iterate (passBytes uBlock : Nat) : Nat → Nat → ByteHeap → ByteHeap
  | 0, _, h => h
  | n + 1, uPrev, h =>
      let (uPrev, h) := hmacSha256 sha256Bytes (.array passBytes) (.array uPrev) h
      let h := xorBlock uBlock uPrev 0 32 h
      iterate passBytes uBlock n uPrev h

/-- `get b in uBlock { when len(derivedKey) < keyLen { push(derivedKey, b) } }`. -/
def appendBlock (derivedKey keyLen : Nat) : Bytes → ByteHeap → ByteHeap
  | [], h => h
  | b :: bytes, h =>
      if (h.read derivedKey).length < keyLen then
        appendBlock derivedKey keyLen bytes (h.push derivedKey b)
      else appendBlock derivedKey keyLen bytes h

/-- `uBlock` of a block, after all iterations. -/
def makeBlock (passBytes saltBytes iterations blockIndex : Nat) (h : ByteHeap) : Nat × ByteHeap :=
  let (initialInput, h) := h.alloc []
  let h := h.pushAll initialInput (h.read saltBytes)
  let (index, h) := h.alloc (int32BE blockIndex)
  let h := h.pushAll initialInput (h.read index)
  let (uPrev, h) := hmacSha256 sha256Bytes (.array passBytes) (.array initialInput) h
  let (uBlock, h) := h.alloc []
  let h := h.pushAll uBlock (h.read uPrev)
  (uBlock, iterate sha256Bytes passBytes uBlock (iterations - 1) uPrev h)

/-- The outer loop. It may run out of steps. -/
def deriveBlocks (passBytes saltBytes iterations keyLen derivedKey : Nat) :
    Nat → Nat → ByteHeap → Option ByteHeap
  | steps, blockIndex, h =>
      if (h.read derivedKey).length < keyLen then
        match steps with
        | 0 => none
        | steps + 1 =>
            let (uBlock, h) := makeBlock sha256Bytes passBytes saltBytes iterations blockIndex h
            let h := appendBlock derivedKey keyLen (h.read uBlock) h
            deriveBlocks passBytes saltBytes iterations keyLen derivedKey steps (blockIndex + 1) h
      else some h

inductive Outcome where
  | outOfSteps
  | thrown (message : String)
  | gives (derivedKey : Nat) (h : ByteHeap)

def deriveBytes (steps : Nat) (password salt : Data) (iterations keyLen : Int) (h : ByteHeap) :
    Outcome :=
  if iterations < 1 then .thrown "PBKDF2: iterations must be >= 1"
  else if keyLen < 1 then .thrown "PBKDF2: key length must be >= 1"
  else
    let (saltBytes, h) := toBytes salt h
    let (passBytes, h) := toBytes password h
    let (derivedKey, h) := h.alloc []
    match deriveBlocks sha256Bytes passBytes saltBytes iterations.toNat keyLen.toNat derivedKey steps
        1 h with
    | none => .outOfSteps
    | some h => .gives derivedKey h

/-! ### The definition of the standard -/

/-- HMAC with SHA-256, the pseudorandom function. -/
def prf (password message : Bytes) : Bytes :=
  hmac (fun data => (sha256Bytes data).1) 64 password message

/-- `INT (i)`: four octets, the most significant first. -/
def octets (i : Nat) : Bytes :=
  [UInt8.ofNat (i / 2 ^ 24 % 256), UInt8.ofNat (i / 2 ^ 16 % 256), UInt8.ofNat (i / 2 ^ 8 % 256),
    UInt8.ofNat (i % 256)]

/-- The iterates, `U_1` at zero. -/
def iterates (password salt : Bytes) (i : Nat) : Nat → Bytes
  | 0 => prf sha256Bytes password (salt ++ octets i)
  | n + 1 => prf sha256Bytes password (iterates password salt i n)

/-- The exclusive-or of the first iterates, one more than said. -/
def xorIterates (password salt : Bytes) (i : Nat) : Nat → Bytes
  | 0 => iterates sha256Bytes password salt i 0
  | n + 1 =>
      List.zipWith (· ^^^ ·) (xorIterates password salt i n) (iterates sha256Bytes password salt i (n + 1))

/-- `T_i = F (P, S, c, i)`. -/
def block (password salt : Bytes) (c i : Nat) : Bytes :=
  xorIterates sha256Bytes password salt i (c - 1)

/-- `DK`, the first `dkLen` bytes of `T_1 || ... || T_l` where `l` is `dkLen / 32` rounded up. -/
def derivedKey (password salt : Bytes) (c dkLen : Nat) : Bytes :=
  (((List.range ((dkLen + 31) / 32)).flatMap fun i => block sha256Bytes password salt c (i + 1))).take
    dkLen

/-! ### What the tasks derive -/

variable {sha256Bytes : Bytes → Digest}

theorem prf_length (password message : Bytes) : (prf sha256Bytes password message).length = 32 :=
  (sha256Bytes _).2

theorem iterates_length (password salt : Bytes) (i n : Nat) :
    (iterates sha256Bytes password salt i n).length = 32 := by
  cases n with
  | zero => exact prf_length _ _
  | succ n => exact prf_length _ _

theorem xorIterates_length (password salt : Bytes) (i n : Nat) :
    (xorIterates sha256Bytes password salt i n).length = 32 := by
  induction n with
  | zero => exact iterates_length _ _ _ _
  | succ n ih => rw [xorIterates, List.length_zipWith, ih, iterates_length, Nat.min_self]

theorem block_length (password salt : Bytes) (c i : Nat) :
    (block sha256Bytes password salt c i).length = 32 :=
  xorIterates_length _ _ _ _

theorem int32BE_eq (i : Nat) : int32BE i = octets i := by
  have hmask : ∀ n : Nat, n &&& 255 = n % 256 := fun n => Nat.and_two_pow_sub_one_eq_mod n 8
  simp only [int32BE, octets, hmask, Nat.shiftRight_eq_div_pow]

theorem hmacSha256_makes {h : ByteHeap} {key message : Nat} (hkey : key < h.next)
    (hmessage : message < h.next) :
    Makes h (hmacSha256 sha256Bytes (.array key) (.array message) h)
      (prf sha256Bytes (h.read key) (h.read message)) :=
  raw_makes (fun data => by rw [(sha256Bytes data).2]; omega) hkey hmessage

/-- The running xor, from an index on. -/
theorem xorBlock_eq {uBlock uPrev : Nat} (hne : uPrev ≠ uBlock) (done done' us ps : Bytes)
    (h : ByteHeap) (hu : h.read uBlock = done ++ us) (hp : h.read uPrev = done' ++ ps)
    (hdone : done.length = done'.length) (hlength : us.length = ps.length) :
    xorBlock uBlock uPrev done.length us.length h =
      h.write uBlock (done ++ List.zipWith (· ^^^ ·) us ps) := by
  induction us generalizing done done' ps h with
  | nil =>
      rw [List.length_nil, xorBlock, List.zipWith_nil_left, ← hu, Arrays.write_self]
  | cons u us ih =>
      cases ps with
      | nil => cases hlength
      | cons p ps =>
          have hget : (h.read uBlock).getD done.length 0 = u := by
            rw [hu, List.getD_eq_getElem?_getD, List.getElem?_append_right (Nat.le_refl _),
              Nat.sub_self, List.getElem?_cons_zero, Option.getD_some]
          have hget' : (h.read uPrev).getD done.length 0 = p := by
            rw [hp, hdone, List.getD_eq_getElem?_getD, List.getElem?_append_right (Nat.le_refl _),
              Nat.sub_self, List.getElem?_cons_zero, Option.getD_some]
          have hset : h.set uBlock done.length (u ^^^ p) =
              h.write uBlock ((done ++ [u ^^^ p]) ++ us) := by
            rw [Arrays.set, hu, List.set_append_right _ _ (Nat.le_refl _), Nat.sub_self, List.set_cons_zero,
              List.append_assoc, List.singleton_append]
          have hnext := ih (done ++ [u ^^^ p]) (done' ++ [p]) ps
            (h.write uBlock ((done ++ [u ^^^ p]) ++ us)) (by simp)
            (by simp [hne, hp]) (by simp [hdone]) (Nat.succ.inj hlength)
          rw [List.length_append, List.length_singleton] at hnext
          rw [List.length_cons, xorBlock]
          simp only [hget, hget', hset, hnext, Arrays.write_write, List.zipWith_cons_cons]
          rw [List.append_assoc, List.singleton_append]

/-- The running xor of whole digests. -/
theorem xorBlock_digests {uBlock uPrev : Nat} (hne : uPrev ≠ uBlock) {h : ByteHeap}
    (hu : (h.read uBlock).length = 32) (hp : (h.read uPrev).length = 32) :
    xorBlock uBlock uPrev 0 32 h =
      h.write uBlock (List.zipWith (· ^^^ ·) (h.read uBlock) (h.read uPrev)) := by
  have hxor := xorBlock_eq hne [] [] (h.read uBlock) (h.read uPrev) h rfl rfl rfl (hu.trans hp.symm)
  rwa [List.length_nil, hu, List.nil_append] at hxor

/-- The iterations take the block from one number of iterates to another, and change nothing else. -/
theorem iterate_spec {password salt : Bytes} {i passBytes uBlock : Nat} (n m : Nat) {uPrev : Nat}
    {h : ByteHeap} (hpass : passBytes < h.next) (hblock : uBlock < h.next) (hprev : uPrev < h.next)
    (hne : uPrev ≠ uBlock) (hne' : passBytes ≠ uBlock) (hpassword : h.read passBytes = password)
    (hread : h.read uBlock = xorIterates sha256Bytes password salt i m)
    (hread' : h.read uPrev = iterates sha256Bytes password salt i m) :
    (iterate sha256Bytes passBytes uBlock n uPrev h).read uBlock =
        xorIterates sha256Bytes password salt i (m + n) ∧
      Arrays.Frame (· = uBlock) h (iterate sha256Bytes passBytes uBlock n uPrev h) := by
  induction n generalizing m uPrev h with
  | zero => exact ⟨hread, Arrays.Frame.refl h⟩
  | succ n ih =>
      have hmakes := @hmacSha256_makes sha256Bytes _ _ _ hpass hprev
      rw [hpassword, hread'] at hmakes
      rw [iterate]
      generalize hmacSha256 sha256Bytes (.array passBytes) (.array uPrev) h = u at hmakes ⊢
      have hblock' := hmakes.read_old hblock
      have hfresh : u.1 ≠ uBlock := by
        have := hmakes.fresh
        omega
      have hread₁ : u.2.read u.1 = iterates sha256Bytes password salt i (m + 1) := hmakes.read
      have hxor := xorBlock_digests hfresh (h := u.2)
        (by rw [hblock', hread]; exact xorIterates_length _ _ _ _)
        (by rw [hread₁]; exact iterates_length _ _ _ _)
      rw [hblock', hread, hread₁] at hxor
      have hstep : Arrays.Frame (· = uBlock) u.2 (xorBlock uBlock u.1 0 32 u.2) := by
        rw [hxor]
        exact @Arrays.Frame.write _ (· = uBlock) _ _ rfl _
      have hmono : Arrays.Frame (· = uBlock) h u.2 := hmakes.frame.mono fun _ _ hfalse => hfalse.elim
      have hnext := @ih (m + 1) u.1 (xorBlock uBlock u.1 0 32 u.2)
        (Nat.lt_of_lt_of_le hpass (hmono.trans hstep).next)
        (Nat.lt_of_lt_of_le hblock (hmono.trans hstep).next)
        (Nat.lt_of_lt_of_le hmakes.made hstep.next) hfresh
        (by rw [hstep.read _ (Nat.lt_of_lt_of_le hpass hmono.next) hne', hmono.read _ hpass hne', hpassword])
        (by rw [hxor, Arrays.write_read, if_pos rfl]; rfl)
        (by rw [hstep.read _ hmakes.made hfresh, hread₁])
      rw [Nat.add_right_comm, Nat.add_assoc] at hnext
      exact ⟨hnext.1, (hmono.trans hstep).trans hnext.2⟩

/-- A block, on an array of its own. -/
theorem makeBlock_makes {passBytes saltBytes : Nat} (iterations blockIndex : Nat) {h : ByteHeap}
    (hpass : passBytes < h.next) (hsalt : saltBytes < h.next) :
    Makes h (makeBlock sha256Bytes passBytes saltBytes iterations blockIndex h)
      (block sha256Bytes (h.read passBytes) (h.read saltBytes) iterations blockIndex) := by
  have hs : saltBytes ≠ h.next := Nat.ne_of_lt hsalt
  -- the input of the first hash
  obtain ⟨h₁, hh₁, hnext₁, hinput, hframe₁⟩ : ∃ h₁ : ByteHeap,
      h₁ = ((((h.alloc []).2.write h.next (h.read saltBytes)).alloc (int32BE blockIndex)).2).write h.next
        (h.read saltBytes ++ int32BE blockIndex) ∧ h₁.next = h.next + 2 ∧
      h₁.read h.next = h.read saltBytes ++ octets blockIndex ∧
      Arrays.Frame (fun _ => False) h h₁ := by
    refine ⟨_, rfl, rfl, ?_, ?_, ?_⟩
    · rw [Arrays.write_read, if_pos rfl, int32BE_eq]
    · exact Nat.le_add_right _ 2
    · intro q hq _
      have hq₁ : q ≠ h.next := Nat.ne_of_lt hq
      have hq₂ : q ≠ h.next + 1 := by omega
      simp [hq₁, hq₂]
  have hprev := @hmacSha256_makes sha256Bytes h₁ _ _
    (Nat.lt_of_lt_of_le hpass hframe₁.next) (show h.next < h₁.next by omega)
  rw [hframe₁.read _ hpass id, hinput] at hprev
  have hmake : makeBlock sha256Bytes passBytes saltBytes iterations blockIndex h =
      let u := hmacSha256 sha256Bytes (.array passBytes) (.array h.next) h₁
      (u.2.next, iterate sha256Bytes passBytes u.2.next (iterations - 1) u.1
        ((u.2.alloc []).2.write u.2.next ((u.2.alloc []).2.read u.1))) := by
    have hne : (h.next + 1 = h.next) = False := by simp
    simp [makeBlock, hh₁, hs]
  rw [hmake]
  generalize hmacSha256 sha256Bytes (.array passBytes) (.array h.next) h₁ = u at hprev ⊢
  simp only []
  have hold : (u.2.alloc []).2.read u.1 = iterates sha256Bytes (h.read passBytes) (h.read saltBytes)
      blockIndex 0 := by
    rw [Arrays.alloc_read, if_neg (Nat.ne_of_lt hprev.made), hprev.read]
    rfl
  rw [hold]
  have hcopy : Arrays.Frame (fun _ => False) u.2 ((u.2.alloc []).2.write u.2.next
      (iterates sha256Bytes (h.read passBytes) (h.read saltBytes) blockIndex 0)) := by
    refine ⟨Nat.le_succ _, fun q hq _ => ?_⟩
    rw [Arrays.write_read, if_neg (Nat.ne_of_lt hq), Arrays.alloc_read, if_neg (Nat.ne_of_lt hq)]
  have hframe := hframe₁.trans (hprev.frame.trans hcopy)
  have hpass₂ : passBytes < u.2.next :=
    Nat.lt_of_lt_of_le hpass (hframe₁.trans hprev.frame).next
  obtain ⟨hread, hloop⟩ := @iterate_spec sha256Bytes (h.read passBytes)
    (h.read saltBytes) blockIndex passBytes u.2.next (iterations - 1) 0 u.1
    ((u.2.alloc []).2.write u.2.next
      (iterates sha256Bytes (h.read passBytes) (h.read saltBytes) blockIndex 0))
    (Nat.lt_succ_of_lt hpass₂) (Nat.lt_succ_self _) (Nat.lt_succ_of_lt hprev.made)
    (Nat.ne_of_lt hprev.made) (Nat.ne_of_lt hpass₂) (hframe.read _ hpass id)
    (by rw [Arrays.write_read, if_pos rfl]; rfl)
    (by rw [Arrays.write_read, if_neg (Nat.ne_of_lt hprev.made), Arrays.alloc_read,
      if_neg (Nat.ne_of_lt hprev.made), hprev.read]; rfl)
  have hnext : h.next ≤ u.2.next := (hframe₁.trans hprev.frame).next
  refine ⟨hnext, Nat.lt_of_lt_of_le (Nat.lt_succ_self _) hloop.next, ?_, ?_⟩
  · rw [hread, Nat.zero_add]
    rfl
  · refine ⟨Nat.le_trans hframe.next hloop.next, fun q hq _ => ?_⟩
    rw [hloop.read q (Nat.lt_of_lt_of_le hq hframe.next) (by omega)]
    exact hframe.read q hq id

theorem appendBlock_eq (derivedKey keyLen : Nat) (bytes : Bytes) (h : ByteHeap) :
    appendBlock derivedKey keyLen bytes h =
      h.write derivedKey
        (h.read derivedKey ++ bytes.take (keyLen - (h.read derivedKey).length)) := by
  induction bytes generalizing h with
  | nil => rw [appendBlock, List.take_nil, List.append_nil, Arrays.write_self]
  | cons b bytes ih =>
      rw [appendBlock]
      split
      case isTrue hlt =>
          have hcount : keyLen - (h.read derivedKey).length =
              keyLen - ((h.read derivedKey).length + 1) + 1 := by omega
          rw [ih, hcount]
          simp [Arrays.push]
      case isFalse hge =>
          have hzero : keyLen - (h.read derivedKey).length = 0 := by omega
          rw [ih, hzero, List.take_zero, List.take_zero]

/-- The first blocks, one after the other. -/
def blocks (sha256Bytes : Bytes → Digest) (password salt : Bytes) (c n : Nat) : Bytes :=
  (List.range n).flatMap fun i => block sha256Bytes password salt c (i + 1)

theorem blocks_succ (password salt : Bytes) (c n : Nat) :
    blocks sha256Bytes password salt c (n + 1) =
      blocks sha256Bytes password salt c n ++ block sha256Bytes password salt c (n + 1) := by
  simp [blocks, List.range_succ]

theorem blocks_length (password salt : Bytes) (c n : Nat) :
    (blocks sha256Bytes password salt c n).length = 32 * n := by
  induction n with
  | zero => rfl
  | succ n ih => rw [blocks_succ, List.length_append, ih, block_length, Nat.mul_succ]

/-- From the block that is next, the outer loop ends with the whole key. -/
theorem deriveBlocks_spec {password salt : Bytes} {passBytes saltBytes key c keyLen : Nat}
    (hpassKey : passBytes ≠ key) (hsaltKey : saltBytes ≠ key) (steps m : Nat) {h : ByteHeap}
    (hpass : passBytes < h.next) (hsalt : saltBytes < h.next) (hkey : key < h.next)
    (hpassword : h.read passBytes = password) (hsaltRead : h.read saltBytes = salt)
    (hread : h.read key = (blocks sha256Bytes password salt c m).take keyLen)
    (hm : m ≤ (keyLen + 31) / 32) (hsteps : keyLen ≤ 32 * (m + steps)) :
    ∃ h', deriveBlocks sha256Bytes passBytes saltBytes c keyLen key steps (m + 1) h = some h' ∧
      h'.read key = derivedKey sha256Bytes password salt c keyLen ∧ Arrays.Frame (· = key) h h' := by
  have hlength : (h.read key).length = min keyLen (32 * m) := by
    rw [hread, List.length_take, blocks_length]
  induction steps generalizing m h with
  | zero =>
      have hdone : ¬(h.read key).length < keyLen := by omega
      have hcount : m = (keyLen + 31) / 32 := by omega
      refine ⟨h, ?_, ?_, Arrays.Frame.refl h⟩
      · rw [deriveBlocks, if_neg hdone]
      · rw [hread, hcount]
        rfl
  | succ steps ih =>
      rw [deriveBlocks]
      split
      case isFalse hdone =>
          have hcount : m = (keyLen + 31) / 32 := by omega
          refine ⟨h, rfl, ?_, Arrays.Frame.refl h⟩
          rw [hread, hcount]
          rfl
      case isTrue hlt =>
          have hmakes := @makeBlock_makes sha256Bytes _ _ c (m + 1) _ hpass hsalt
          rw [hpassword, hsaltRead] at hmakes
          simp only []
          generalize makeBlock sha256Bytes passBytes saltBytes c (m + 1) h = u at hmakes ⊢
          have hkey' := hmakes.read_old hkey
          have hfull : (blocks sha256Bytes password salt c m).take keyLen =
              blocks sha256Bytes password salt c m := by
            refine List.take_of_length_le ?_
            rw [blocks_length]
            omega
          have happend := appendBlock_eq key keyLen (u.2.read u.1) u.2
          rw [hkey', hmakes.read, hlength, hread, hfull] at happend
          have hmono : Arrays.Frame (· = key) h u.2 := hmakes.frame.mono fun _ _ hfalse => hfalse.elim
          have hstep : Arrays.Frame (· = key) u.2 (appendBlock key keyLen (u.2.read u.1) u.2) := by
            rw [hmakes.read, happend]
            exact @Arrays.Frame.write _ (· = key) _ _ rfl _
          have hframe := hmono.trans hstep
          have hnow : (appendBlock key keyLen (u.2.read u.1) u.2).read key =
              (blocks sha256Bytes password salt c (m + 1)).take keyLen := by
            rw [hmakes.read, happend, Arrays.write_read, if_pos rfl, blocks_succ, List.take_append,
              blocks_length, hfull]
            congr 2
            omega
          obtain ⟨h', hrun, hresult, hrest⟩ := ih (m + 1)
            (Nat.lt_of_lt_of_le hpass hframe.next) (Nat.lt_of_lt_of_le hsalt hframe.next)
            (Nat.lt_of_lt_of_le hkey hframe.next)
            ((hframe.read _ hpass hpassKey).trans hpassword) ((hframe.read _ hsalt hsaltKey).trans hsaltRead)
            hnow (by omega) (by omega)
            (by rw [hnow, List.length_take, blocks_length])
          exact ⟨h', hrun, hresult, hframe.trans hrest⟩

/-- The two tasks compute what the standards define, whatever the arrays hold and wherever they lie, and
leave them as they were. Thirty-two bytes of a key take at most one step of the outer loop. -/
theorem raw_and_deriveBytes_follow_standards (sha256Bytes : Bytes → Digest) (h : ByteHeap) :
    (∀ (hashFn : Bytes → Bytes) (blockSize : Nat), (∀ data, (hashFn data).length ≤ blockSize) →
      ∀ key < h.next, ∀ msg < h.next,
        ∃ digest h', raw (.array key) (.array msg) hashFn blockSize h = (digest, h') ∧
          h'.read digest = hmac hashFn blockSize (h.read key) (h.read msg) ∧
          ∀ q < h.next, h'.read q = h.read q) ∧
    ∀ password < h.next, ∀ salt < h.next, ∀ iterations keyLen : Int, 1 ≤ iterations → 1 ≤ keyLen →
      ∀ steps : Nat, keyLen ≤ 32 * steps →
        ∃ key h', deriveBytes sha256Bytes steps (.array password) (.array salt) iterations keyLen h =
            .gives key h' ∧
          h'.read key = derivedKey sha256Bytes (h.read password) (h.read salt) iterations.toNat
            keyLen.toNat ∧
          ∀ q < h.next, h'.read q = h.read q := by
  refine ⟨fun hashFn blockSize hdigest key hkey msg hmsg => ?_,
    fun password hpassword salt hsalt iterations keyLen hiterations hkeyLen steps hsteps => ?_⟩
  · have hmakes := raw_makes hdigest hkey hmsg
    exact ⟨_, _, rfl, hmakes.read, fun q hq => hmakes.read_old hq⟩
  · have hframe : Arrays.Frame (· = h.next) h (h.alloc []).2 := Arrays.Frame.alloc h []
    obtain ⟨h', hrun, hread, hrest⟩ := @deriveBlocks_spec sha256Bytes _ _ _ _ _
      iterations.toNat keyLen.toNat (Nat.ne_of_lt hpassword) (Nat.ne_of_lt hsalt)
      steps 0 (h.alloc []).2 (Nat.lt_succ_of_lt hpassword) (Nat.lt_succ_of_lt hsalt)
      (Nat.lt_succ_self _) rfl rfl
      (by rw [Arrays.alloc_read, if_pos rfl]; exact List.take_nil.symm) (Nat.zero_le _) (by omega)
    refine ⟨h.next, h', ?_, ?_, fun q hq => ?_⟩
    · rw [deriveBytes, if_neg (by omega), if_neg (by omega)]
      simp only [toBytes, Arrays.alloc_fst]
      rw [hrun]
    · rw [hread, hframe.read _ hpassword (Nat.ne_of_lt hpassword),
        hframe.read _ hsalt (Nat.ne_of_lt hsalt)]
    · exact (hframe.trans hrest).read q hq (Nat.ne_of_lt hq)

end PBKDF2

end Crypto

end EZLanguage
