import GrinPlusPlus.Lib.Bits
import GrinPlusPlus.Wallet.Armor

/-!
# Seed phrases

`Mnemonic::CreateMnemonic` writes the entropy of a wallet as words: its bits, with some bits of
their own hash behind them, eleven at a time. `Mnemonic::ToEntropy` finds the words in the list,
takes the hash bits from the last word, and writes the bits of the others into bytes *from the
last word backwards*, least significant bit first.

Both are sequences of writes into a buffer of words of one width (`GrinPlusPlus.Lib.Bits`), and
both leave one equation behind: the bits of the indices are the bits of the entropy, and then
those of the checksum (`GrinPlusPlus.Mnemonic.ofWords_wordIndices`,
`GrinPlusPlus.Mnemonic.ofWords_entropyBytes`). It determines each side from the other.

The hash is any function of the bytes, and the list is any list of 2048 distinct words
(`GrinPlusPlus.Mnemonic.WordList`); a word is not empty and has no white space in it, and no null,
with which a string of the source would end.
-/

namespace GrinPlusPlus

namespace Mnemonic

open Armor (isWhitespace split)

/-! ### The two functions -/

/-- A word: not empty, and without white space and nulls. -/
def IsWord (word : List Char) : Prop :=
  word ≠ [] ∧ ∀ c ∈ word, isWhitespace c = false ∧ c ≠ '\x00'

/-- A list that can stand for `WORD_LIST`. -/
structure WordList where
  /-- The words. -/
  words : List (List Char)
  /-- There are 2048 of them. -/
  length_eq : words.length = 2048
  /-- They are distinct. -/
  nodup : words.Nodup
  /-- They are words. -/
  isWord : ∀ word ∈ words, IsWord word

variable (sha256 : List UInt8 → UInt8) (W : WordList)

/-- The mask of both functions, a byte. -/
def mask (checksumBits : ℕ) : ℕ :=
  ((1 <<< checksumBits) - 1) % 256

/-- `(Hasher::SHA256(entropy)[0] >> (8 - checksumBits)) & mask`. -/
def checksum (entropy : List UInt8) (checksumBits : ℕ) : ℕ :=
  ((sha256 entropy).toNat >>> (8 - checksumBits)) &&& mask checksumBits

/-- The loops of `CreateMnemonic` that fill `wordIndices`. -/
def wordIndices (entropy : List UInt8) (checksumBits numWords : ℕ) : List ℕ :=
  let filled := entropy.foldl (fun s byte =>
    (List.range' 1 8).reverse.foldl
      (fun s j => Bits.write 11 s (byte.toNat.testBit (j - 1))) s)
    (List.replicate numWords 0, 0)
  ((List.range' 1 checksumBits).reverse.foldl
    (fun s i => Bits.write 11 s ((checksum sha256 entropy checksumBits).testBit (i - 1)))
    filled).1

/-- Words with single spaces between them. -/
def phrase (words : List (List Char)) : List Char :=
  [' '].intercalate words

/-- `WORD_LIST[wordIndices[i]]`. -/
def wordAt (index : ℕ) : Except Exc (List Char) :=
  orThrow W.words[index]? .undefined

/-- `Mnemonic::CreateMnemonic`. Beyond 32 bytes the shift by `8 - checksumBits` is not defined. -/
def createMnemonic (entropy : List UInt8) : Except Exc (List Char) :=
  if entropy.length % 4 ≠ 0 then .error (.runtime "Entropy was of incorrect length.")
  else do
    let entropyBits := entropy.length * 8
    let checksumBits := entropyBits / 32
    let numWords := (entropyBits + checksumBits) / 11
    if 8 < checksumBits then .error .undefined
    else do
      let words ← (wordIndices sha256 entropy checksumBits numWords).mapM (wordAt W)
      pure (phrase words)

/-- `StringUtil::Trim`. -/
def trim (s : List Char) : List Char :=
  ((s.dropWhile isWhitespace).reverse.dropWhile isWhitespace).reverse

/-- The loop of `ToEntropy` that looks a word up. -/
def findWord (word : List Char) : Except Exc ℕ :=
  orThrow (W.words.findIdx? (· = word)) (.runtime "Word not found.")

/-- The loops of `ToEntropy` that fill `entropy`. -/
def entropyBytes (wordIndices : List ℕ) (checksumBits dataLength : ℕ) : List ℕ :=
  let start := (List.replicate (dataLength + 1) 0).set dataLength
    ((wordIndices.getLastD 0 >>> checksumBits) % 256)
  (wordIndices.dropLast.reverse.foldl (fun s word =>
    (List.range 11).foldl (fun s k => Bits.writeBack 8 dataLength s (word.testBit k)) s)
    (start, 11 - checksumBits)).1

/-- `Mnemonic::ToEntropy`, of a string that ends with its first null. -/
def toEntropy (walletWords : List Char) : Except Exc (List UInt8) := do
  let words := split (trim (walletWords.takeWhile (· ≠ '\x00'))) ' '
  let numWords := words.length
  if numWords < 12 ∨ 24 < numWords ∨ numWords % 3 ≠ 0 then
    .error (.runtime "Invalid number of words provided.")
  else do
    let wordIndices ← words.mapM (findWord W)
    let checksumBits := numWords / 3
    let expectedChecksum := (wordIndices.getLastD 0 % 256) &&& mask checksumBits
    let dataLength := (11 * numWords - checksumBits) / 8 - 1
    let entropy := (entropyBytes wordIndices checksumBits dataLength).map UInt8.ofNat
    if checksum sha256 entropy checksumBits ≠ expectedChecksum then
      .error (.runtime "Invalid checksum.")
    else pure entropy

/-! ### The bits of the indices -/

/-- The bits of a word as the loops of the source count them. -/
theorem ofWord_eq_range' (w x : ℕ) :
    Bits.ofWord w x = (List.range' 1 w).reverse.map fun j => x.testBit (j - 1) := by
  rw [Bits.ofWord, List.range'_eq_map_range, ← List.map_reverse, List.map_map]
  refine List.map_congr_left fun i _ => ?_
  rw [Function.comp_apply, Nat.add_sub_cancel_left]

theorem and_mask_eq {checksumBits : ℕ} (h : checksumBits ≤ 8) (n : ℕ) :
    n &&& mask checksumBits = n % 2 ^ checksumBits := by
  have hle : 2 ^ checksumBits ≤ 2 ^ 8 := Nat.pow_le_pow_right (by decide) h
  have hpos := Nat.two_pow_pos checksumBits
  rw [mask, Nat.shiftLeft_eq, Nat.one_mul, Nat.mod_eq_of_lt (by omega),
    Nat.and_two_pow_sub_one_eq_mod]

theorem checksum_lt {checksumBits : ℕ} (h : checksumBits ≤ 8) (entropy : List UInt8) :
    checksum sha256 entropy checksumBits < 2 ^ checksumBits := by
  rw [checksum, and_mask_eq h]
  exact Nat.mod_lt _ (Nat.two_pow_pos _)

/-- The loops of `CreateMnemonic` are one sequence of writes. -/
theorem wordIndices_eq (entropy : List UInt8) (checksumBits numWords : ℕ) :
    wordIndices sha256 entropy checksumBits numWords =
      ((Bits.ofWords 8 (entropy.map UInt8.toNat) ++
        Bits.ofWord checksumBits (checksum sha256 entropy checksumBits)).foldl (Bits.write 11)
          (List.replicate numWords 0, 0)).1 := by
  rw [wordIndices, List.foldl_append, Bits.ofWords, List.flatMap_map, List.foldl_flatMap,
    ofWord_eq_range', List.foldl_map]
  simp only [ofWord_eq_range', List.foldl_map]

/-- **What `CreateMnemonic` leaves in the indices.** -/
theorem ofWords_wordIndices {entropy : List UInt8} {k : ℕ} (h : entropy.length = 4 * k) :
    Bits.ofWords 11 (wordIndices sha256 entropy k (3 * k)) =
      Bits.ofWords 8 (entropy.map UInt8.toNat) ++
        Bits.ofWord k (checksum sha256 entropy k) := by
  have hzeros : Bits.ofWords 11 (List.replicate (3 * k) 0) =
      [] ++ (List.replicate (Bits.ofWords 8 (entropy.map UInt8.toNat) ++
        Bits.ofWord k (checksum sha256 entropy k)).length false ++ []) := by
    rw [Bits.ofWords_replicate_zero, List.length_append, Bits.length_ofWords, List.length_map,
      Bits.length_ofWord, h, List.append_nil, List.nil_append]
    congr 1
    omega
  have hfold := Bits.ofWords_foldl_write (by decide) _ hzeros
  rw [wordIndices_eq]
  simpa using hfold

theorem length_wordIndices (entropy : List UInt8) (checksumBits numWords : ℕ) :
    (wordIndices sha256 entropy checksumBits numWords).length = numWords := by
  rw [wordIndices_eq, Bits.length_foldl_write, List.length_replicate]

theorem wordIndices_lt (entropy : List UInt8) (checksumBits numWords : ℕ) :
    ∀ index ∈ wordIndices sha256 entropy checksumBits numWords, index < 2 ^ 11 := by
  rw [wordIndices_eq]
  refine Bits.foldl_write_lt (by decide) _ fun x hx => ?_
  rw [List.eq_of_mem_replicate hx]
  decide

/-! ### The bits of the entropy -/

/-- The loops of `ToEntropy` are one sequence of writes backwards. -/
theorem foldl_writeBack_words (words : List ℕ) (last : ℕ) (s : List ℕ × ℕ) :
    words.reverse.foldl (fun s word =>
        (List.range 11).foldl (fun s k => Bits.writeBack 8 last s (word.testBit k)) s) s =
      (Bits.ofWords 11 words).reverse.foldl (Bits.writeBack 8 last) s := by
  rw [Bits.ofWords, List.reverse_flatMap, List.foldl_flatMap]
  simp only [Function.comp_apply, Bits.ofWord, List.map_reverse, List.reverse_reverse,
    List.foldl_map]

theorem length_entropyBytes (indices : List ℕ) (checksumBits dataLength : ℕ) :
    (entropyBytes indices checksumBits dataLength).length = dataLength + 1 := by
  rw [entropyBytes, foldl_writeBack_words, Bits.length_foldl_writeBack, List.length_set,
    List.length_replicate]

theorem entropyBytes_lt (indices : List ℕ) (checksumBits dataLength : ℕ) :
    ∀ x ∈ entropyBytes indices checksumBits dataLength, x < 2 ^ 8 := by
  rw [entropyBytes, foldl_writeBack_words]
  refine Bits.foldl_writeBack_lt (by decide) _ _ fun x hx => ?_
  rcases List.mem_or_eq_of_mem_set hx with hmem | rfl
  · rw [List.eq_of_mem_replicate hmem]
    decide
  · exact Nat.mod_lt _ (by decide)

/-- **What `ToEntropy` leaves in the bytes**: with the checksum that it takes from the last word,
they are the bits of the indices. -/
theorem ofWords_entropyBytes {indices : List ℕ} {k : ℕ} (hk : 4 ≤ k) (hk8 : k ≤ 8)
    (hlength : indices.length = 3 * k) (hlt : ∀ index ∈ indices, index < 2 ^ 11) :
    Bits.ofWords 11 indices =
      Bits.ofWords 8 (entropyBytes indices k (4 * k - 1)) ++
        Bits.ofWord k ((indices.getLastD 0 % 256) &&& mask k) := by
  obtain ⟨front, back, rfl⟩ : ∃ front back, indices = front ++ [back] := by
    rcases List.eq_nil_or_concat indices with rfl | ⟨front, back, h⟩
    · rw [List.length_nil] at hlength
      omega
    · exact ⟨front, back, h.trans List.concat_eq_append⟩
  have hback : back < 2 ^ 11 := hlt back (by simp)
  have hfront : front.length = 3 * k - 1 := by
    rw [List.length_append, List.length_singleton] at hlength
    omega
  -- the last word is cut into bits of the entropy and the checksum
  have hhigh : back >>> k < 2 ^ (11 - k) := by
    rw [Nat.shiftRight_eq_div_pow]
    refine Nat.div_lt_of_lt_mul ?_
    rwa [← Nat.pow_add, Nat.add_sub_cancel' (by omega)]
  have hlow : (back % 256) &&& mask k = back % 2 ^ k := by
    rw [and_mask_eq hk8]
    exact Nat.mod_mod_of_dvd _ (Nat.pow_dvd_pow 2 hk8)
  have hword : Bits.ofWord 11 back =
      Bits.ofWord (11 - k) (back >>> k) ++ Bits.ofWord k (back % 2 ^ k) := by
    rw [← Bits.ofWord_add, Nat.sub_add_cancel (by omega)]
  have hbyte : Bits.ofWord 8 (back >>> k % 256) =
      List.replicate (k - 3) false ++ Bits.ofWord (11 - k) (back >>> k) := by
    have hpow : 2 ^ (11 - k) ≤ 2 ^ 8 := Nat.pow_le_pow_right (by decide) (by omega)
    rw [Nat.mod_eq_of_lt (by omega), ← Bits.ofWord_add_of_lt _ hhigh]
    congr 1
    omega
  -- what the buffer holds before the other words come
  have hstart : ((List.replicate (4 * k - 1 + 1) 0).set (4 * k - 1) (back >>> k % 256)) =
      List.replicate (4 * k - 1) 0 ++ [back >>> k % 256] := by
    rw [List.replicate_succ', List.set_append_right _ _ (by simp)]
    simp
  have hzeros : Bits.ofWords 8 (List.replicate (4 * k - 1) 0 ++ [back >>> k % 256]) =
      [] ++ (List.replicate (Bits.ofWords 11 front).reverse.length false ++
        Bits.ofWord (11 - k) (back >>> k)) := by
    rw [Bits.ofWords_append, Bits.ofWords_replicate_zero, Bits.ofWords_cons, Bits.ofWords_nil,
      List.append_nil, hbyte, ← List.append_assoc, List.replicate_append_replicate,
      List.length_reverse, Bits.length_ofWords, hfront, List.nil_append]
    congr 2
    omega
  have hfold := Bits.ofWords_foldl_writeBack (by decide) _ hzeros
  rw [List.length_append, List.length_replicate, List.length_singleton, Nat.add_sub_cancel,
    Bits.length_ofWord, List.reverse_reverse, List.nil_append] at hfold
  rw [entropyBytes, List.getLastD_concat, List.dropLast_concat, hstart, foldl_writeBack_words,
    hfold, hlow, Bits.ofWords_append, Bits.ofWords_cons, Bits.ofWords_nil, List.append_nil,
    hword, List.append_assoc]

/-! ### The text -/

theorem phrase_cons (word next : List Char) (words : List (List Char)) :
    phrase (word :: next :: words) = word ++ ' ' :: phrase (next :: words) := by
  rw [phrase, List.intercalate_cons_cons, List.append_assoc]
  rfl

theorem mem_phrase {words : List (List Char)} {c : Char} (hc : c ∈ phrase words) :
    c = ' ' ∨ ∃ word ∈ words, c ∈ word := by
  induction words with
  | nil => cases hc
  | cons word words ih =>
    cases words with
    | nil =>
      rw [phrase, List.intercalate_singleton] at hc
      exact .inr ⟨word, List.mem_cons_self, hc⟩
    | cons next words =>
      rw [phrase_cons, List.mem_append, List.mem_cons] at hc
      rcases hc with hc | rfl | hc
      · exact .inr ⟨word, List.mem_cons_self, hc⟩
      · exact .inl rfl
      · exact (ih hc).imp_right fun ⟨word', hmem, hc⟩ => ⟨word', List.mem_cons_of_mem _ hmem, hc⟩

/-- A phrase starts and ends with a letter. -/
theorem exists_ends_phrase {words : List (List Char)} (hne : words ≠ [])
    (h : ∀ word ∈ words, IsWord word) :
    (∃ c rest, phrase words = c :: rest ∧ isWhitespace c = false) ∧
      ∃ front c, phrase words = front ++ [c] ∧ isWhitespace c = false := by
  induction words with
  | nil => exact absurd rfl hne
  | cons word words ih =>
    obtain ⟨hword, hchars⟩ := h word List.mem_cons_self
    obtain ⟨c, rest, rfl⟩ := List.exists_cons_of_ne_nil hword
    cases words with
    | nil =>
      have hsingle : phrase [c :: rest] = c :: rest := List.intercalate_singleton
      refine ⟨⟨c, rest, hsingle, (hchars c List.mem_cons_self).1⟩, ?_⟩
      obtain ⟨front, d, hd⟩ := (List.eq_nil_or_concat (c :: rest)).resolve_left (by simp)
      rw [List.concat_eq_append] at hd
      exact ⟨front, d, hsingle.trans hd, (hchars d (by rw [hd]; simp)).1⟩
    | cons next words =>
      have hcons := phrase_cons (c :: rest) next words
      obtain ⟨-, front, d, hd, hspace⟩ := ih (by simp)
        fun word hmem => h word (List.mem_cons_of_mem _ hmem)
      refine ⟨⟨c, _, hcons, (hchars c List.mem_cons_self).1⟩,
        (c :: rest) ++ ' ' :: front, d, ?_, hspace⟩
      rw [hcons, hd]
      simp

/-- A phrase has no white space around it. -/
theorem trim_phrase {words : List (List Char)} (h : ∀ word ∈ words, IsWord word) :
    trim (phrase words) = phrase words := by
  by_cases hne : words = []
  · rw [hne]
    rfl
  · obtain ⟨⟨c, rest, hhead, hc⟩, front, d, hlast, hd⟩ := exists_ends_phrase hne h
    have hleft : (phrase words).dropWhile isWhitespace = phrase words := by
      rw [hhead, List.dropWhile_cons_of_neg (by simp [hc])]
    rw [trim, hleft, hlast, List.reverse_append, List.reverse_singleton, List.singleton_append,
      List.dropWhile_cons_of_neg (by simp [hd]), List.reverse_cons, List.reverse_reverse]

/-- A phrase has no null in it. -/
theorem takeWhile_phrase {words : List (List Char)} (h : ∀ word ∈ words, IsWord word) :
    (phrase words).takeWhile (· ≠ '\x00') = phrase words := by
  refine List.takeWhile_eq_self_iff.2 fun c hc => ?_
  rcases mem_phrase hc with rfl | ⟨word, hword, hc⟩
  · decide
  · simpa using ((h word hword).2 c hc).2

/-- **The words of a phrase are found again.** -/
theorem split_phrase {words : List (List Char)} (h : ∀ word ∈ words, IsWord word) :
    split (phrase words) ' ' = words := by
  by_cases hne : words = []
  · rw [hne]
    rfl
  · have hspace : ∀ word ∈ words, ' ' ∉ word := fun word hword hmem =>
      absurd ((h word hword).2 ' ' hmem).1 (by decide)
    have hsplit : (phrase words).splitOnP (fun c => decide (c = ' ')) = words :=
      List.splitOn_intercalate ' ' hspace hne
    rw [split, hsplit, List.filter_eq_self]
    exact fun word hword => by simpa using (h word hword).1

/-- What `ToEntropy` makes of a phrase before it looks its words up. -/
theorem words_of_phrase {words : List (List Char)} (h : ∀ word ∈ words, IsWord word) :
    split (trim ((phrase words).takeWhile (· ≠ '\x00'))) ' ' = words := by
  rw [takeWhile_phrase h, trim_phrase h, split_phrase h]

/-! ### Words and indices -/

variable {W}

theorem wordAt_eq_ok {word : List Char} {index : ℕ} :
    wordAt W index = .ok word ↔ W.words[index]? = some word :=
  orThrow_eq_ok

/-- **The two look-ups are inverse to each other**: the words are distinct. -/
theorem findWord_eq_ok_iff {word : List Char} {index : ℕ} :
    findWord W word = .ok index ↔ wordAt W index = .ok word := by
  rw [findWord, orThrow_eq_ok, wordAt_eq_ok, List.findIdx?_eq_some_iff_getElem,
    List.getElem?_eq_some_iff]
  constructor
  · rintro ⟨hlt, hword, -⟩
    exact ⟨hlt, by simpa using hword⟩
  · rintro ⟨hlt, rfl⟩
    refine ⟨hlt, by simp, fun j hj heq => ?_⟩
    have hsame : W.words[j] = W.words[index] := by simpa using heq
    exact absurd ((W.nodup.getElem_inj_iff).1 hsame) (Nat.ne_of_lt hj)

theorem lt_of_wordAt {word : List Char} {index : ℕ} (h : wordAt W index = .ok word) :
    index < 2 ^ 11 := by
  obtain ⟨hlt, -⟩ := List.getElem?_eq_some_iff.1 (wordAt_eq_ok.1 h)
  rwa [W.length_eq] at hlt

theorem isWord_of_wordAt {word : List Char} {index : ℕ} (h : wordAt W index = .ok word) :
    IsWord word :=
  W.isWord word (List.mem_of_getElem? (wordAt_eq_ok.1 h))

/-- Indices of eleven bits have words. -/
theorem exists_mapM_wordAt {indices : List ℕ} (h : ∀ index ∈ indices, index < 2 ^ 11) :
    ∃ words, indices.mapM (wordAt W) = .ok words := by
  induction indices with
  | nil => exact ⟨[], rfl⟩
  | cons index indices ih =>
    obtain ⟨words, hwords⟩ := ih fun i hi => h i (List.mem_cons_of_mem index hi)
    have hlt : index < W.words.length := by
      rw [W.length_eq]
      exact h index List.mem_cons_self
    have hword : wordAt W index = .ok W.words[index] :=
      wordAt_eq_ok.2 (List.getElem?_eq_getElem hlt)
    refine ⟨W.words[index] :: words, ?_⟩
    rw [List.mapM_cons, hword, hwords]
    rfl

/-- **A list of words is looked up as the list of their indices**, and back. -/
theorem mapM_findWord_iff {words : List (List Char)} {indices : List ℕ} :
    words.mapM (findWord W) = .ok indices ↔ indices.mapM (wordAt W) = .ok words := by
  rw [Exec.mapM_eq_ok_iff, Exec.mapM_eq_ok_iff]
  constructor
  · exact fun h => (h.imp fun _ _ => findWord_eq_ok_iff.1).flip
  · exact fun h => (h.imp fun _ _ => findWord_eq_ok_iff.2).flip

/-! ### What the functions return -/

variable {sha256}

/-- **What `CreateMnemonic` returns** for an entropy of `4 * k` bytes. -/
theorem createMnemonic_eq_ok {entropy : List UInt8} {k : ℕ} (hk8 : k ≤ 8)
    (hlength : entropy.length = 4 * k) {walletWords : List Char} :
    createMnemonic sha256 W entropy = .ok walletWords ↔
      ∃ words, (wordIndices sha256 entropy k (3 * k)).mapM (wordAt W) = .ok words ∧
        walletWords = phrase words := by
  have hwords : (entropy.length * 8 + entropy.length * 8 / 32) / 11 = 3 * k := by omega
  have hbits : entropy.length * 8 / 32 = k := by omega
  rw [createMnemonic, if_neg (by omega)]
  dsimp only
  rw [hwords, hbits, if_neg (by omega)]
  constructor
  · intro h
    obtain ⟨words, hmap, h⟩ := Exec.of_bind_eq_ok h
    exact ⟨words, hmap, (Except.ok.inj h).symm⟩
  · rintro ⟨words, hmap, rfl⟩
    rw [hmap]
    rfl

/-- **What `ToEntropy` returns** for a phrase. -/
theorem toEntropy_phrase_eq_ok {words : List (List Char)} (h : ∀ word ∈ words, IsWord word)
    {entropy : List UInt8} :
    toEntropy sha256 W (phrase words) = .ok entropy ↔
      ∃ k indices, 4 ≤ k ∧ k ≤ 8 ∧ words.length = 3 * k ∧
        words.mapM (findWord W) = .ok indices ∧
        entropy = (entropyBytes indices k (4 * k - 1)).map UInt8.ofNat ∧
        checksum sha256 entropy k = (indices.getLastD 0 % 256) &&& mask k := by
  rw [toEntropy, words_of_phrase h]
  dsimp only
  constructor
  · intro hok
    split_ifs at hok with hnum
    obtain ⟨indices, hmap, hok⟩ := Exec.of_bind_eq_ok hok
    obtain ⟨k, hk⟩ : ∃ k, words.length = 3 * k := ⟨words.length / 3, by omega⟩
    have hthird : words.length / 3 = k := by omega
    have hdata : (11 * words.length - k) / 8 - 1 = 4 * k - 1 := by omega
    rw [hthird, hdata] at hok
    split_ifs at hok with hsum
    exact ⟨k, indices, by omega, by omega, hk, hmap, (Except.ok.inj hok).symm,
      (Except.ok.inj hok) ▸ Decidable.not_not.1 hsum⟩
  · rintro ⟨k, indices, hk, hk8, hlength, hmap, rfl, hsum⟩
    have hthird : words.length / 3 = k := by omega
    have hdata : (11 * words.length - k) / 8 - 1 = 4 * k - 1 := by omega
    rw [if_neg (by omega), hmap, Exec.ok_bind, hthird, hdata,
      if_neg (by simpa using hsum)]
    rfl

/-! ### The round trips -/

/-- Bytes that were made from numbers below 256. -/
theorem map_toNat_ofNat {buffer : List ℕ} (h : ∀ x ∈ buffer, x < 2 ^ 8) :
    (buffer.map UInt8.ofNat).map UInt8.toNat = buffer := by
  rw [List.map_map]
  refine (List.map_congr_left fun x hx => ?_).trans (List.map_id _)
  exact UInt8.toNat_ofNat_of_lt' (h x hx)

/-- **The one equation behind both directions**: indices and entropy with the same bits, the
checksum behind those of the entropy, determine each other. -/
theorem bits_iff {entropy : List UInt8} {indices : List ℕ} {k : ℕ} (hk : 4 ≤ k) (hk8 : k ≤ 8)
    (hentropy : entropy.length = 4 * k) (hlength : indices.length = 3 * k)
    (hlt : ∀ index ∈ indices, index < 2 ^ 11) :
    indices = wordIndices sha256 entropy k (3 * k) ↔
      entropy = (entropyBytes indices k (4 * k - 1)).map UInt8.ofNat ∧
        checksum sha256 entropy k = (indices.getLastD 0 % 256) &&& mask k := by
  have hencode := ofWords_wordIndices sha256 hentropy
  have hdecode := ofWords_entropyBytes hk hk8 hlength hlt
  have hsum : (indices.getLastD 0 % 256) &&& mask k < 2 ^ k := by
    rw [and_mask_eq hk8]
    exact Nat.mod_lt _ (Nat.two_pow_pos k)
  constructor
  · intro h
    rw [← h, hdecode] at hencode
    obtain ⟨hbytes, hchecksum⟩ := List.append_inj hencode (by
      rw [Bits.length_ofWords, Bits.length_ofWords, length_entropyBytes, List.length_map, hentropy]
      omega)
    have heq := Bits.ofWords_injective (by decide) (entropyBytes_lt _ _ _)
      (fun x hx => by
        obtain ⟨b, -, rfl⟩ := List.mem_map.1 hx
        exact b.toNat_lt) hbytes
    refine ⟨?_, (Bits.ofWord_injective hsum (checksum_lt sha256 hk8 _) hchecksum).symm⟩
    rw [heq, List.map_map]
    refine (List.map_id _).symm.trans (List.map_congr_left fun b _ => ?_)
    exact (UInt8.ofNat_toNat).symm
  · rintro ⟨hbytes, hchecksum⟩
    have hsame : Bits.ofWords 11 indices =
        Bits.ofWords 11 (wordIndices sha256 entropy k (3 * k)) := by
      rw [hencode, hdecode, hchecksum]
      congr 2
      rw [hbytes, map_toNat_ofNat (entropyBytes_lt _ _ _)]
    exact Bits.ofWords_injective (by decide) hlt (wordIndices_lt sha256 _ _ _) hsame

/-- What is looked up by indices: words, as many as there are indices, which have eleven bits. -/
theorem of_mapM_wordAt {indices : List ℕ} {words : List (List Char)}
    (h : indices.mapM (wordAt W) = .ok words) :
    (∀ word ∈ words, IsWord word) ∧ indices.length = words.length ∧
      ∀ index ∈ indices, index < 2 ^ 11 := by
  rw [Exec.mapM_eq_ok_iff] at h
  refine ⟨fun word hword => ?_, h.length_eq, fun index hindex => ?_⟩
  · obtain ⟨n, hn⟩ := List.mem_iff_getElem.1 hword
    obtain ⟨hlt, rfl⟩ := hn
    exact isWord_of_wordAt (h.get (h.length_eq ▸ hlt) hlt)
  · obtain ⟨n, hlt, rfl⟩ := List.mem_iff_getElem.1 hindex
    exact lt_of_wordAt (h.get hlt (h.length_eq ▸ hlt))

/-- **Seed phrases are a bijection**: an entropy of each of the five lengths comes back from its
phrase, and a phrase that is accepted comes back from its entropy. -/
theorem toEntropy_createMnemonic (sha256 : List UInt8 → UInt8) (W : WordList) :
    (∀ entropy : List UInt8, entropy.length ∈ [16, 20, 24, 28, 32] →
      (createMnemonic sha256 W entropy >>= toEntropy sha256 W) = .ok entropy) ∧
    ∀ words : List (List Char), (∀ word ∈ words, IsWord word) → ∀ entropy,
      toEntropy sha256 W (phrase words) = .ok entropy →
        createMnemonic sha256 W entropy = .ok (phrase words) := by
  constructor
  · intro entropy hmem
    obtain ⟨k, hk, hk8, hlength⟩ : ∃ k, 4 ≤ k ∧ k ≤ 8 ∧ entropy.length = 4 * k := by
      simp only [List.mem_cons, List.not_mem_nil, or_false] at hmem
      exact ⟨entropy.length / 4, by omega⟩
    obtain ⟨words, hwords⟩ := @exists_mapM_wordAt W _ (wordIndices_lt sha256 entropy k (3 * k))
    obtain ⟨hisWord, hlengths, -⟩ := of_mapM_wordAt hwords
    rw [length_wordIndices] at hlengths
    rw [(createMnemonic_eq_ok hk8 hlength).2 ⟨words, hwords, rfl⟩, Exec.ok_bind]
    refine (toEntropy_phrase_eq_ok hisWord).2 ⟨k, _, hk, hk8, hlengths.symm,
      mapM_findWord_iff.2 hwords, ?_⟩
    exact (bits_iff hk hk8 hlength (length_wordIndices _ _ _ _) (wordIndices_lt _ _ _ _)).1 rfl
  · intro words hisWord entropy h
    obtain ⟨k, indices, hk, hk8, hlength, hfind, hbytes, hsum⟩ :=
      (toEntropy_phrase_eq_ok hisWord).1 h
    have hwords := mapM_findWord_iff.1 hfind
    obtain ⟨-, hlengths, hlt⟩ := of_mapM_wordAt hwords
    have hentropy : entropy.length = 4 * k := by
      rw [hbytes, List.length_map, length_entropyBytes]
      omega
    have hindices := (bits_iff hk hk8 hentropy (hlengths.trans hlength) hlt).2 ⟨hbytes, hsum⟩
    exact (createMnemonic_eq_ok hk8 hentropy).2 ⟨words, hindices ▸ hwords, rfl⟩

/-! ### A list of words -/

/-- The words are strings of one letter, of every length up to 2048. -/
def letters : List (List Char) :=
  (List.range 2048).map fun n => List.replicate (n + 1) 'a'

theorem nodup_letters : letters.Nodup := by
  refine List.Nodup.map (fun m n h => ?_) List.nodup_range
  have hlength := congrArg List.length h
  simpa using hlength

theorem isWord_replicate (n : ℕ) : IsWord (List.replicate (n + 1) 'a') := by
  refine ⟨by simp [List.replicate_succ], fun c hc => ?_⟩
  rw [List.eq_of_mem_replicate hc]
  decide

theorem isWord_letters : ∀ word ∈ letters, IsWord word := by
  intro word hword
  obtain ⟨n, -, rfl⟩ := List.mem_map.1 hword
  exact isWord_replicate n

theorem length_letters : letters.length = 2048 := by
  rw [letters, List.length_map, List.length_range]

/-- The list of these words. -/
def letterList : WordList where
  words := letters
  length_eq := length_letters
  nodup := nodup_letters
  isWord := isWord_letters

/-- Sixteen zero bytes, whose hash begins with a zero byte, and their phrase. -/
theorem toEntropy_createMnemonic_zeros :
    (createMnemonic (fun _ => 0) letterList (List.replicate 16 0) >>=
      toEntropy (fun _ => 0) letterList) = .ok (List.replicate 16 0) ∧
    createMnemonic (fun _ => 0) letterList (List.replicate 16 0) =
      .ok (phrase (List.replicate 12 ['a'])) := by
  have hround := toEntropy_createMnemonic (fun _ => 0) letterList
  have hisWord : ∀ word ∈ List.replicate 12 ['a'], IsWord word := fun word hword =>
    List.eq_of_mem_replicate hword ▸ isWord_replicate 0
  have hfind : findWord letterList ['a'] = .ok 0 := by
    rw [findWord_eq_ok_iff, wordAt_eq_ok]
    simp [letterList, letters]
  have hmap : (List.replicate 12 ['a']).mapM (findWord letterList) =
      .ok (List.replicate 12 0) := by
    simp only [List.replicate, List.mapM_cons, List.mapM_nil, hfind]
    rfl
  refine ⟨hround.1 _ (by decide), hround.2 _ hisWord _ ?_⟩
  exact (toEntropy_phrase_eq_ok hisWord).2
    ⟨4, _, le_rfl, by decide, by decide, hmap, by decide +kernel, by decide +kernel⟩

end Mnemonic

end GrinPlusPlus
