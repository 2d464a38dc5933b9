import Jiopad.Consensus.Basic

/-!
# Block headers

`Header` of `header.rs` and the byte string `hash_with_nonce(nonce)` hashes: the fixed
fields little-endian and the parent levels length-prefixed by `u32` counts.  When every
count fits in a `u32` the string determines the nonce and every field but the stored
nonce, which it never reads.
-/

namespace Jiopad

/-- `Header`, without `cached_hash`, which nothing reads or writes. -/
structure Header where
  version : UInt16
  parentsByLevel : List (List Hash)
  merkleRoot : Hash
  timestamp : UInt64
  bits : UInt32
  nonce : UInt64
  daaScore : UInt64
  blueScore : UInt64
  blueWork : Uint192
  pruningPoint : Hash
  deriving DecidableEq

namespace Header

def new : Header :=
  ⟨1, [[]], Hash.default, 0, 0, 0, 0, 0, Uint192.fromU64 0, Hash.default⟩

def levelBytes (level : List Hash) : List UInt8 :=
  (UInt32.ofNat level.length).toLeBytes ++ level.flatMap Hash.asBytes

def hashPreimage (header : Header) (nonce : UInt64) : List UInt8 :=
  header.version.toLeBytes ++ (UInt32.ofNat header.parentsByLevel.length).toLeBytes ++
    header.parentsByLevel.flatMap levelBytes ++ header.merkleRoot.asBytes ++
    header.timestamp.toLeBytes ++ header.bits.toLeBytes ++ nonce.toLeBytes ++
    header.daaScore.toLeBytes ++ header.blueScore.toLeBytes ++ header.blueWork.toLeBytes ++
    header.pruningPoint.asBytes

def hashWithNonce (sha256 : List UInt8 → List UInt8) (header : Header) (nonce : UInt64) : Hash :=
  hashBlockHeader sha256 (header.hashPreimage nonce)

def hash (sha256 : List UInt8 → List UInt8) (header : Header) : Hash :=
  header.hashWithNonce sha256 header.nonce

/-- Every count `hash_with_nonce` casts to `u32` fits in one: the number of levels
and the length of each level. -/
def LevelCountsFit (header : Header) : Prop :=
  header.parentsByLevel.length < 2 ^ 32 ∧ ∀ level ∈ header.parentsByLevel, level.length < 2 ^ 32

instance (header : Header) : Decidable header.LevelCountsFit :=
  inferInstanceAs (Decidable (_ ∧ _))

/-! ## Decoding the pre-image -/

theorem length_flatMap_asBytes (hashes : List Hash) :
    (hashes.flatMap Hash.asBytes).length = 32 * hashes.length := by
  induction hashes with
  | nil => rfl
  | cons h hashes ih =>
    rw [List.flatMap_cons, List.length_append, ih, Hash.length_asBytes, List.length_cons]
    omega

theorem flatMap_asBytes_inj :
    ∀ {hashes hashes' : List Hash}, hashes.flatMap Hash.asBytes = hashes'.flatMap Hash.asBytes →
      hashes = hashes'
  | [], [], _ => rfl
  | [], _ :: _, e | _ :: _, [], e => by
    have := congrArg List.length e
    simp only [length_flatMap_asBytes, List.length_cons, List.length_nil] at this
    omega
  | h :: hashes, h' :: hashes', e => by
    rw [List.flatMap_cons, List.flatMap_cons] at e
    obtain ⟨hh, e⟩ := List.append_inj e (by simp)
    rw [Hash.ext_bytes hh, flatMap_asBytes_inj e]

theorem length_eq_of_toLeBytes {m n : Nat} (hm : m < 2 ^ 32) (hn : n < 2 ^ 32)
    (e : (UInt32.ofNat m).toLeBytes = (UInt32.ofNat n).toLeBytes) : m = n := by
  have e := congrArg UInt32.toNat (UInt32.toLeBytes_inj e)
  rwa [UInt32.toNat_ofNat_of_lt hm, UInt32.toNat_ofNat_of_lt hn] at e

theorem flatMap_levelBytes_inj :
    ∀ {levels levels' : List (List Hash)}, levels.length = levels'.length →
      (∀ level ∈ levels, level.length < 2 ^ 32) → (∀ level ∈ levels', level.length < 2 ^ 32) →
      levels.flatMap levelBytes = levels'.flatMap levelBytes → levels = levels'
  | [], [], _, _, _, _ => rfl
  | l :: levels, l' :: levels', hlen, hfit, hfit', e => by
    rw [List.flatMap_cons, List.flatMap_cons, levelBytes, levelBytes, List.append_assoc,
      List.append_assoc] at e
    obtain ⟨hcount, e⟩ := List.append_inj e (by simp)
    have hl := length_eq_of_toLeBytes (hfit l (List.mem_cons_self _ _))
      (hfit' l' (List.mem_cons_self _ _)) hcount
    obtain ⟨hl', e⟩ := List.append_inj e (by rw [length_flatMap_asBytes, length_flatMap_asBytes, hl])
    rw [flatMap_asBytes_inj hl', flatMap_levelBytes_inj (Nat.succ.inj hlen)
      (fun x hx => hfit x (List.mem_cons_of_mem _ hx)) (fun x hx => hfit' x (List.mem_cons_of_mem _ hx)) e]

/-- For headers whose counts fit in a `u32`, the pre-image of `hash_with_nonce(nonce)`
determines the nonce and every field but the stored nonce; and `hash_with_nonce(n)` is
`hash()` of the header with its nonce set to `n`. -/
theorem hashPreimage_eq_iff (header header' : Header) (nonce nonce' : UInt64)
    (hfit : header.LevelCountsFit) (hfit' : header'.LevelCountsFit) :
    (header.hashPreimage nonce = header'.hashPreimage nonce' ↔
      nonce = nonce' ∧ header.version = header'.version ∧
        header.parentsByLevel = header'.parentsByLevel ∧ header.merkleRoot = header'.merkleRoot ∧
        header.timestamp = header'.timestamp ∧ header.bits = header'.bits ∧
        header.daaScore = header'.daaScore ∧ header.blueScore = header'.blueScore ∧
        header.blueWork = header'.blueWork ∧ header.pruningPoint = header'.pruningPoint) ∧
    ∀ sha256, header.hashWithNonce sha256 nonce = { header with nonce := nonce }.hash sha256 := by
  refine ⟨⟨fun e => ?_, ?_⟩, fun _ => rfl⟩
  · simp only [hashPreimage] at e
    obtain ⟨e, hpp⟩ := List.append_inj' e (by simp)
    obtain ⟨e, hwork⟩ := List.append_inj' e (by simp)
    obtain ⟨e, hblue⟩ := List.append_inj' e (by simp)
    obtain ⟨e, hdaa⟩ := List.append_inj' e (by simp)
    obtain ⟨e, hnonce⟩ := List.append_inj' e (by simp)
    obtain ⟨e, hbits⟩ := List.append_inj' e (by simp)
    obtain ⟨e, hts⟩ := List.append_inj' e (by simp)
    obtain ⟨e, hmr⟩ := List.append_inj' e (by simp)
    obtain ⟨e, hlevels⟩ := List.append_inj e (by simp)
    obtain ⟨hversion, hcount⟩ := List.append_inj e (by simp)
    have hlen := length_eq_of_toLeBytes hfit.1 hfit'.1 hcount
    exact ⟨UInt64.toLeBytes_inj hnonce, UInt16.toLeBytes_inj hversion,
      flatMap_levelBytes_inj hlen hfit.2 hfit'.2 hlevels, Hash.ext_bytes hmr,
      UInt64.toLeBytes_inj hts, UInt32.toLeBytes_inj hbits, UInt64.toLeBytes_inj hdaa,
      UInt64.toLeBytes_inj hblue, Uint192.toLeBytes_inj hwork, Hash.ext_bytes hpp⟩
  · rintro ⟨rfl, hversion, hlevels, hmr, hts, hbits, hdaa, hblue, hwork, hpp⟩
    simp only [hashPreimage, hversion, hlevels, hmr, hts, hbits, hdaa, hblue, hwork, hpp]

theorem hashPreimage_eq_iff_parents :
    ∃ header header' : Header, header = Header.new ∧
      header' = { Header.new with parentsByLevel := [[Hash.default]] } ∧
      header.LevelCountsFit ∧ header'.LevelCountsFit ∧
      ((header.hashPreimage 0 = header'.hashPreimage 0 ↔
        (0 : UInt64) = 0 ∧ header.version = header'.version ∧
          header.parentsByLevel = header'.parentsByLevel ∧ header.merkleRoot = header'.merkleRoot ∧
          header.timestamp = header'.timestamp ∧ header.bits = header'.bits ∧
          header.daaScore = header'.daaScore ∧ header.blueScore = header'.blueScore ∧
          header.blueWork = header'.blueWork ∧ header.pruningPoint = header'.pruningPoint) ∧
      ∀ sha256, header.hashWithNonce sha256 0 = { header with nonce := 0 }.hash sha256) :=
  have hfit : Header.new.LevelCountsFit := by decide
  have hfit' : { Header.new with parentsByLevel := [[Hash.default]] }.LevelCountsFit := by decide
  ⟨_, _, rfl, rfl, hfit, hfit', hashPreimage_eq_iff _ _ _ _ hfit hfit'⟩

end Header

end Jiopad
