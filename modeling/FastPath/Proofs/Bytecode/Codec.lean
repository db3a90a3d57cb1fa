import FastPath.Bytecode.Codec

/-!
# The byte encoding is exact

Encoding and decoding are inverse to each other, on every list of instructions and on every
byte string that decodes. A byte string that does not decode stops at one place: a byte
that is no opcode, or an opcode whose operand is cut off.

Everything comes from the head of the stream. Reading the head gives an instruction
exactly when the stream starts with the encoding of that instruction (`decodeHead_encode`,
`encode_of_decodeHead`), and fails exactly at a `HeadFault` (`decodeHead_error_iff`). So the
bytes of a list of instructions can be read off the front of any stream
(`decodeFrom_encodeAll_append`).
-/

namespace FastPath.Bytecode

/-! ### Operand words -/

/-- The word has no more than `size` bytes. -/
def FitsIn : (size w : Nat) → Prop
  | 0, w => w = 0
  | size + 1, w => FitsIn size (w / 256)

@[simp] theorem length_wordBytes (size w : Nat) : (wordBytes size w).length = size := by
  induction size generalizing w with
  | zero => rfl
  | succ size ih => simp [wordBytes, ih]

theorem bytesWord_wordBytes {size w : Nat} (h : FitsIn size w) :
    bytesWord (wordBytes size w) = w := by
  induction size generalizing w with
  | zero => exact h.symm
  | succ size ih =>
    have hlow : (UInt8.ofNat w).toNat = w % 256 := UInt8.toNat_ofNat'
    rw [wordBytes, bytesWord, ih h, hlow]
    omega

theorem wordBytes_bytesWord (bs : List UInt8) : wordBytes bs.length (bytesWord bs) = bs := by
  induction bs with
  | nil => rfl
  | cons b bs ih =>
    have hb : b.toNat < 256 := b.toNat_lt
    have hhigh : (b.toNat + 256 * bytesWord bs) / 256 = bytesWord bs := by omega
    have hlow : UInt8.ofNat (b.toNat + 256 * bytesWord bs) = b := by
      apply UInt8.toNat_inj.1
      rw [UInt8.toNat_ofNat']
      omega
    rw [List.length_cons, bytesWord, wordBytes, hhigh, hlow, ih]

theorem fitsIn_bytesWord (bs : List UInt8) : FitsIn bs.length (bytesWord bs) := by
  induction bs with
  | nil => rfl
  | cons b bs ih =>
    have hb : b.toNat < 256 := b.toNat_lt
    have hhigh : (b.toNat + 256 * bytesWord bs) / 256 = bytesWord bs := by omega
    rw [List.length_cons, bytesWord, FitsIn, hhigh]
    exact ih

theorem fitsIn_two {w : Nat} : FitsIn 2 w ↔ w < 65536 := by
  simp only [FitsIn]
  omega

theorem fitsIn_four {w : Nat} : FitsIn 4 w ↔ w < 4294967296 := by
  simp only [FitsIn]
  omega

theorem varWord_lt (v : Var) : (Instr.varWord v).toNat < 65536 := by
  cases v with
  | loc i | arg i => exact i.toNat_lt

/-- The operand word has room in the operand. -/
theorem Instr.fitsIn_word (i : Instr) : FitsIn i.opcode.operandSize i.word.toNat := by
  fun_cases Instr.opcode i
  all_goals first
    | rfl
    | exact fitsIn_two.2 (varWord_lt _)
    | exact fitsIn_four.2 (UInt32.toNat_lt _)

/-- An operand word that has room in the operand is kept. -/
theorem Instr.word_ofWord {op : Opcode} {w : UInt32} (h : FitsIn op.operandSize w.toNat) :
    (Instr.ofWord op w).word = w := by
  have hnone (h : FitsIn 0 w.toNat) : 0 = w := UInt32.toNat_inj.1 (Eq.symm h)
  have hindex (h : FitsIn 2 w.toNat) : w.toUInt16.toUInt32 = w := by
    apply UInt32.toNat_inj.1
    simpa using Nat.mod_eq_of_lt (fitsIn_two.1 h)
  cases op
  all_goals first
    | exact hnone h
    | exact hindex h
    | rfl

/-! ### The head of a stream -/

/-- What can be wrong with the head of a stream that stands at `offset`. -/
inductive HeadFault (offset : Nat) : List UInt8 → Error → Prop where
  /-- The first byte is no opcode. -/
  | invalidOpcode {b : UInt8} {rest : List UInt8} (hb : Opcode.ofByte? b = none) :
      HeadFault offset (b :: rest) (.invalidOpcode b offset)
  /-- The operand runs past the end. -/
  | unexpectedEnd {b : UInt8} {rest : List UInt8} {op : Opcode}
      (hb : Opcode.ofByte? b = some op) (hshort : rest.length < op.operandSize) :
      HeadFault offset (b :: rest) (.unexpectedEnd (offset + 1))

variable {offset size : Nat} {b : UInt8} {rest bytes : List UInt8} {i : Instr} {is : List Instr}
  {e : Error}

/-- Decoding fails exactly for the listed faults. -/
theorem decodeHead_error_iff :
    decodeHead offset b rest = .error e ↔ HeadFault offset (b :: rest) e := by
  constructor
  · intro h
    unfold decodeHead at h
    split at h
    · next hb =>
      cases h
      exact .invalidOpcode hb
    · next op hb =>
      by_cases hshort : rest.length < op.operandSize
      · simp only [hshort, if_true] at h
        cases h
        exact .unexpectedEnd hb hshort
      · simp only [hshort, if_false] at h
        cases h
  · rintro (hb | ⟨hb, hshort⟩)
    · simp [decodeHead, hb]
    · simp [decodeHead, hb, hshort]

/-- The encoding of an instruction is read back, whatever follows it. -/
theorem decodeHead_encode (offset : Nat) (i : Instr) (rest : List UInt8) :
    decodeHead offset i.opcode.byte (wordBytes i.opcode.operandSize i.word.toNat ++ rest) =
      .ok (i, i.opcode.operandSize) := by
  have htake : (wordBytes i.opcode.operandSize i.word.toNat ++ rest).take i.opcode.operandSize =
      wordBytes i.opcode.operandSize i.word.toNat := by
    rw [List.take_append_of_le_length (by simp), List.take_of_length_le (by simp)]
  simp [decodeHead, Opcode.ofByte?_byte, htake, bytesWord_wordBytes i.fitsIn_word,
    Instr.ofWord_word]

/-- What is read off the head is the encoding of the instruction. -/
theorem encode_of_decodeHead (h : decodeHead offset b rest = .ok (i, size)) :
    b :: rest = i.encode ++ rest.drop size ∧ i.encode.length = 1 + size := by
  unfold decodeHead at h
  split at h
  · cases h
  · next op hb =>
    by_cases hshort : rest.length < op.operandSize
    · simp only [hshort, if_true] at h
      cases h
    · simp only [hshort, if_false] at h
      cases h
      have hlen : (rest.take op.operandSize).length = op.operandSize := by simp; omega
      have hfits : FitsIn op.operandSize (bytesWord (rest.take op.operandSize)) := by
        have := fitsIn_bytesWord (rest.take op.operandSize)
        rwa [hlen] at this
      -- An operand has at most four bytes, so its word is not cut.
      have hword : (UInt32.ofNat (bytesWord (rest.take op.operandSize))).toNat =
          bytesWord (rest.take op.operandSize) := by
        rw [UInt32.toNat_ofNat']
        apply Nat.mod_eq_of_lt
        change _ < 4294967296
        generalize bytesWord (rest.take op.operandSize) = w at hfits
        cases op <;> first
          | exact fitsIn_four.1 hfits
          | exact Nat.lt_trans (fitsIn_two.1 hfits) (by decide)
          | exact hfits ▸ (by decide)
      have hbytes : wordBytes op.operandSize (bytesWord (rest.take op.operandSize)) =
          rest.take op.operandSize := by
        have := wordBytes_bytesWord (rest.take op.operandSize)
        rwa [hlen] at this
      constructor
      · rw [Instr.encode, Instr.opcode_ofWord, Instr.word_ofWord (by rwa [hword]), hword, hbytes,
          Opcode.byte_of_ofByte? hb, List.cons_append, List.take_append_drop]
      · rw [Instr.encode, Instr.opcode_ofWord, List.length_cons, length_wordBytes, Nat.add_comm]

/-! ### Streams -/

/-- The bytes of one instruction are read off the front. -/
theorem decodeFrom_encode_append (offset : Nat) (i : Instr) (rest : List UInt8) :
    decodeFrom offset (i.encode ++ rest) =
      (decodeFrom (offset + i.encode.length) rest).map (i :: ·) := by
  have hdrop : (wordBytes i.opcode.operandSize i.word.toNat ++ rest).drop i.opcode.operandSize =
      rest := by
    rw [List.drop_append_of_le_length (by simp), List.drop_of_length_le (by simp),
      List.nil_append]
  have hoffset : offset + 1 + i.opcode.operandSize = offset + i.encode.length := by
    rw [Instr.encode, List.length_cons, length_wordBytes]
    omega
  have hcons : i.encode ++ rest =
      i.opcode.byte :: (wordBytes i.opcode.operandSize i.word.toNat ++ rest) := rfl
  rw [hcons, decodeFrom, decodeHead_encode]
  simp only [hdrop, hoffset]
  cases decodeFrom (offset + i.encode.length) rest <;> rfl

/-- The bytes of a list of instructions are read off the front. -/
theorem decodeFrom_encodeAll_append (offset : Nat) (is : List Instr) (rest : List UInt8) :
    decodeFrom offset (encodeAll is ++ rest) =
      (decodeFrom (offset + (encodeAll is).length) rest).map (is ++ ·) := by
  induction is generalizing offset with
  | nil =>
    change decodeFrom offset rest = (decodeFrom offset rest).map id
    cases decodeFrom offset rest <;> rfl
  | cons i is ih =>
    have hcons : encodeAll (i :: is) = i.encode ++ encodeAll is := rfl
    rw [hcons, List.append_assoc, decodeFrom_encode_append, ih, List.length_append,
      ← Nat.add_assoc]
    cases decodeFrom (offset + i.encode.length + (encodeAll is).length) rest <;> rfl

theorem decodeAll_encodeAll (is : List Instr) : decodeAll (encodeAll is) = .ok is := by
  have h := decodeFrom_encodeAll_append 0 is []
  rw [List.append_nil] at h
  rw [decodeAll, h, decodeFrom]
  simp [Except.map]

/-- A stream that decodes is the encoding of what it decodes to. -/
theorem encodeAll_of_decodeFrom (h : decodeFrom offset bytes = .ok is) : encodeAll is = bytes := by
  fun_induction decodeFrom offset bytes generalizing is with
  | case1 =>
    cases h
    rfl
  | case2 => cases h
  | case3 => cases h
  | case4 offset b rest i size hhead is' hrest ih =>
    cases h
    change i.encode ++ encodeAll is' = b :: rest
    rw [ih hrest, ← (encode_of_decodeHead hhead).1]

/-- A stream that does not decode has a bad head behind the encoding of some instructions. -/
theorem headFault_of_decodeFrom (h : decodeFrom offset bytes = .error e) :
    ∃ is rest, bytes = encodeAll is ++ rest ∧
      HeadFault (offset + (encodeAll is).length) rest e := by
  fun_induction decodeFrom offset bytes with
  | case1 => cases h
  | case2 offset b rest e' hhead =>
    cases h
    exact ⟨[], b :: rest, rfl, decodeHead_error_iff.1 hhead⟩
  | case3 offset b rest i size hhead e' hrest ih =>
    cases h
    obtain ⟨is, rest', hbytes, hfault⟩ := ih hrest
    obtain ⟨hhead, hlen⟩ := encode_of_decodeHead hhead
    refine ⟨i :: is, rest', ?_, ?_⟩
    · change b :: rest = (i.encode ++ encodeAll is) ++ rest'
      rw [List.append_assoc, ← hbytes, hhead]
    · change HeadFault (offset + (i.encode ++ encodeAll is).length) rest' e
      rwa [List.length_append, hlen, ← Nat.add_assoc, ← Nat.add_assoc]
  | case4 => cases h

/-- A stream with a bad head does not start with an instruction. -/
theorem HeadFault.ne_encode_append (h : HeadFault offset bytes e) (i : Instr)
    (rest : List UInt8) : bytes ≠ i.encode ++ rest := by
  rintro rfl
  have herror := decodeHead_error_iff.2 h
  exact nomatch (decodeHead_encode offset i rest).symm.trans herror

/-- A bad head says what the error is. -/
theorem HeadFault.error_unique {e' : Error} (h : HeadFault offset bytes e)
    (h' : HeadFault offset bytes e') : e' = e := by
  cases bytes with
  | nil => cases h
  | cons b rest =>
    have herror := decodeHead_error_iff.2 h
    rw [decodeHead_error_iff.2 h'] at herror
    exact Except.error.inj herror

/-- Bad heads behind the encodings of two lists in one stream stand at the same place. -/
theorem HeadFault.place_unique {is is' : List Instr} {rest rest' : List UInt8} {o o' : Nat}
    {e e' : Error} (h : HeadFault o rest e) (h' : HeadFault o' rest' e')
    (hsame : encodeAll is ++ rest = encodeAll is' ++ rest') : is' = is := by
  induction is generalizing is' with
  | nil =>
    cases is' with
    | nil => rfl
    | cons i' is' =>
      have hstart : rest = i'.encode ++ (encodeAll is' ++ rest') :=
        hsame.trans (List.append_assoc _ _ _)
      exact absurd hstart (h.ne_encode_append i' _)
  | cons i is ih =>
    cases is' with
    | nil =>
      have hstart : rest' = i.encode ++ (encodeAll is ++ rest) :=
        hsame.symm.trans (List.append_assoc _ _ _)
      exact absurd hstart (h'.ne_encode_append i _)
    | cons i' is' =>
      have hboth : i.encode ++ (encodeAll is ++ rest) = i'.encode ++ (encodeAll is' ++ rest') :=
        (List.append_assoc _ _ _).symm.trans (hsame.trans (List.append_assoc _ _ _))
      -- Both sides start with an instruction, and the head of a stream gives only one.
      obtain ⟨hbyte, htail⟩ := List.cons.inj hboth
      have hhead := decodeHead_encode o i (encodeAll is ++ rest)
      change wordBytes i.opcode.operandSize i.word.toNat ++ (encodeAll is ++ rest) =
        wordBytes i'.opcode.operandSize i'.word.toNat ++ (encodeAll is' ++ rest') at htail
      rw [htail, hbyte, decodeHead_encode] at hhead
      obtain rfl : i' = i := (Prod.mk.inj (Except.ok.inj hhead)).1
      rw [ih (List.append_cancel_left hboth)]

/-- Decoding reads the prefix `p` of the bytes and fails right behind it. -/
def StopsAfter (bytes p : List UInt8) (e : Error) : Prop :=
  ∃ rest, bytes = p ++ rest ∧ (∃ is, decodeAll p = .ok is) ∧ HeadFault p.length rest e

/-- **The codec is exact.** Encoding is undone by decoding and, where decoding succeeds, the
other way around. Where it fails, there is exactly one prefix that decodes and is followed
by a byte that is no opcode or by an opcode whose operand is cut off, and the error is the
one that belongs to it. -/
theorem codec_exact :
    (∀ is, decodeAll (encodeAll is) = .ok is) ∧
    (∀ bytes is, decodeAll bytes = .ok is → encodeAll is = bytes) ∧
    (∀ bytes e, decodeAll bytes = .error e →
      ∃ p, StopsAfter bytes p e ∧ ∀ p' e', StopsAfter bytes p' e' → p' = p ∧ e' = e) := by
  refine ⟨decodeAll_encodeAll, fun _ _ => encodeAll_of_decodeFrom, fun bytes e h => ?_⟩
  obtain ⟨is, rest, hbytes, hfault⟩ := headFault_of_decodeFrom h
  rw [Nat.zero_add] at hfault
  refine ⟨encodeAll is, ⟨rest, hbytes, ⟨is, decodeAll_encodeAll is⟩, hfault⟩, ?_⟩
  rintro p' e' ⟨rest', hbytes', ⟨is', hdecode'⟩, hfault'⟩
  obtain rfl : encodeAll is' = p' := encodeAll_of_decodeFrom hdecode'
  have hsame := hbytes.symm.trans hbytes'
  obtain rfl := hfault.place_unique hfault' hsame
  obtain rfl := List.append_cancel_left hsame
  exact ⟨rfl, hfault.error_unique hfault'⟩

/-- `push 1` without its last byte, behind a `dup`: decoding stops after the first byte. -/
theorem codec_exact_truncated :
    decodeAll [0x21, 0x0C, 1, 0, 0] = .error (.unexpectedEnd 2) ∧
    ∃ p, StopsAfter [0x21, 0x0C, 1, 0, 0] p (.unexpectedEnd 2) ∧
      ∀ p' e', StopsAfter [0x21, 0x0C, 1, 0, 0] p' e' → p' = p ∧ e' = .unexpectedEnd 2 := by
  have h : decodeAll [0x21, 0x0C, 1, 0, 0] = .error (.unexpectedEnd 2) := by
    have hhead : decodeHead 0 0x21 [0x0C, 1, 0, 0] = .ok (.dup, 0) := rfl
    have hnext : decodeHead 1 0x0C [1, 0, 0] = .error (.unexpectedEnd 2) := rfl
    rw [decodeAll, decodeFrom, hhead]
    simp only [List.drop_zero, Nat.zero_add, Nat.add_zero]
    rw [decodeFrom, hnext]
  exact ⟨h, codec_exact.2.2 _ _ h⟩

end FastPath.Bytecode
