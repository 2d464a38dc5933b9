import Jiopad.Consensus.Basic

/-!
# Script public keys

`tx/script_public_key.rs`.  `pay_to_pubkey_hash` writes `OP_DUP OP_HASH160
OP_PUSHBYTES_32`, the 32 bytes of the hash and `OP_EQUALVERIFY OP_CHECKSIG`.
`is_pay_to_pubkey_hash` accepts a script of 37 bytes with those five opcodes in
those places, whatever the 32 bytes between them: these are exactly the scripts
`pay_to_pubkey_hash` builds.  `script_type` asks it first, and `pubkey_hash` reads
the hash back from bytes 3 to 34, so building and reading back are inverse.
-/

namespace Jiopad

inductive ScriptPublicKeyType where
  | PayToPubkeyHash
  | PayToScriptHash
  | PayToPubkey
  | Unknown
  deriving DecidableEq

structure ScriptPublicKey where
  script : List UInt8
  version : UInt16
  deriving DecidableEq

namespace ScriptPublicKey

def new (script : List UInt8) (version : UInt16) : ScriptPublicKey := ⟨script, version⟩

def payToPubkeyHash (pubkeyHash : Hash) : ScriptPublicKey :=
  new ([0x76, 0xa9, 0x20] ++ pubkeyHash.asBytes ++ [0x88, 0xac]) 0

/-- `ScriptPublicKey::is_pay_to_pubkey_hash`; the indexing comes after the length test
and stays in range. -/
def isPayToPubkeyHash (s : ScriptPublicKey) : Bool :=
  s.script.length == 37 && s.script[0]? == some 0x76 && s.script[1]? == some 0xa9 &&
    s.script[2]? == some 0x20 && s.script[35]? == some 0x88 && s.script[36]? == some 0xac

def isPayToScriptHash (s : ScriptPublicKey) : Bool :=
  s.script.length == 23 && s.script[0]? == some 0xa9 && s.script[1]? == some 0x14 &&
    s.script[22]? == some 0x87

def isPayToPubkey (s : ScriptPublicKey) : Bool :=
  (s.script.length == 35 || s.script.length == 67) && s.script.getLast? == some 0xac

def scriptType (s : ScriptPublicKey) : ScriptPublicKeyType :=
  if s.isPayToPubkeyHash then .PayToPubkeyHash
  else if s.isPayToScriptHash then .PayToScriptHash
  else if s.isPayToPubkey then .PayToPubkey
  else .Unknown

def pubkeyHash (s : ScriptPublicKey) : Option Hash :=
  if s.isPayToPubkeyHash then some (Hash.fromSlice ((s.script.drop 3).take 32)) else none

def validate (s : ScriptPublicKey) : ConsensusResult Unit :=
  if s.script.isEmpty then .error (.ScriptValidation "Script public key is empty") else .ok ()

def scriptHash (sha256 : List UInt8 → List UInt8) (s : ScriptPublicKey) : Hash :=
  hashScript sha256 s.script

private theorem eq_of_opcodes {l : List UInt8} (hl : l.length = 37) (h0 : l[0]? = some 0x76)
    (h1 : l[1]? = some 0xa9) (h2 : l[2]? = some 0x20) (h35 : l[35]? = some 0x88)
    (h36 : l[36]? = some 0xac) :
    l = [0x76, 0xa9, 0x20] ++ (l.drop 3).take 32 ++ [0x88, 0xac] := by
  have hmid : ((l.drop 3).take 32).length = 32 := by simp [hl]
  apply List.ext_getElem?
  intro i
  by_cases hi : i < 3
  · obtain rfl | rfl | rfl : i = 0 ∨ i = 1 ∨ i = 2 := by omega
    all_goals simp [h0, h1, h2]
  · by_cases hm : i < 35
    · rw [List.getElem?_append_left (by simp [hmid]; omega),
        List.getElem?_append_right (by simp; omega), List.getElem?_take, if_pos (by simp; omega),
        List.getElem?_drop]
      simp only [List.length_cons, List.length_nil]
      congr 1
      omega
    · rw [List.getElem?_append_right (by simp [hmid]; omega)]
      simp only [List.length_append, hmid, List.length_cons, List.length_nil]
      obtain rfl | rfl | hbig : i = 35 ∨ i = 36 ∨ 37 ≤ i := by omega
      · simp [h35]
      · simp [h36]
      · rw [List.getElem?_eq_none (by omega), List.getElem?_eq_none (by simp; omega)]

theorem isPayToPubkeyHash_iff (s : ScriptPublicKey) :
    s.isPayToPubkeyHash = true ↔
      ∃ bytes : List UInt8, bytes.length = 32 ∧ s.script = [0x76, 0xa9, 0x20] ++ bytes ++ [0x88, 0xac] := by
  constructor
  · intro h
    simp only [isPayToPubkeyHash, Bool.and_eq_true, beq_iff_eq] at h
    obtain ⟨⟨⟨⟨⟨hl, h0⟩, h1⟩, h2⟩, h35⟩, h36⟩ := h
    exact ⟨(s.script.drop 3).take 32, by simp [hl], eq_of_opcodes hl h0 h1 h2 h35 h36⟩
  · rintro ⟨bytes, hl, hs⟩
    simp [isPayToPubkeyHash, hs, hl, List.getElem_append_right]

/-- `pay_to_pubkey_hash` and `pubkey_hash` are inverse: a built script is of type
`PayToPubkeyHash` and gives its hash back, and every script `is_pay_to_pubkey_hash`
accepts has a hash, from which `pay_to_pubkey_hash` rebuilds the script. -/
theorem payToPubkeyHash_pubkeyHash :
    (∀ h : Hash, (payToPubkeyHash h).scriptType = .PayToPubkeyHash ∧
      (payToPubkeyHash h).pubkeyHash = some h) ∧
    ∀ s : ScriptPublicKey, s.isPayToPubkeyHash = true →
      ∃ h, s.pubkeyHash = some h ∧ (payToPubkeyHash h).script = s.script := by
  refine ⟨fun h => ?_, fun s hs => ?_⟩
  · have hp : (payToPubkeyHash h).isPayToPubkeyHash = true :=
      (isPayToPubkeyHash_iff _).mpr ⟨h.asBytes, by simp, rfl⟩
    refine ⟨by simp [scriptType, hp], ?_⟩
    rw [pubkeyHash, if_pos hp]
    simp [payToPubkeyHash, new]
  · obtain ⟨bytes, hl, hscript⟩ := (isPayToPubkeyHash_iff s).mp hs
    refine ⟨Hash.fromSlice bytes, by simp [pubkeyHash, hs, hscript, hl], ?_⟩
    simp [payToPubkeyHash, new, hscript, Hash.asBytes_fromSlice hl]

theorem payToPubkeyHash_pubkeyHash_sevens :
    (ScriptPublicKey.mk ([0x76, 0xa9, 0x20] ++ List.replicate 32 7 ++ [0x88, 0xac]) 5).isPayToPubkeyHash =
      true ∧
    ∃ h, (ScriptPublicKey.mk ([0x76, 0xa9, 0x20] ++ List.replicate 32 7 ++ [0x88, 0xac]) 5).pubkeyHash =
        some h ∧
      (payToPubkeyHash h).script = [0x76, 0xa9, 0x20] ++ List.replicate 32 7 ++ [0x88, 0xac] :=
  ⟨by decide, payToPubkeyHash_pubkeyHash.2 _ (by decide)⟩

end ScriptPublicKey

end Jiopad
