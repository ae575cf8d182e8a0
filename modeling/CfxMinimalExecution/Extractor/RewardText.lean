import CfxMinimalExecution.Cfxpack.PatchPosReward
import CfxMinimalExecution.Extractor.FileNames
import CfxMinimalExecution.Extractor.PosRewards
import CfxMinimalExecution.Library.Text

/-!
# The text form of a reward

A record of the column of rewards is printed as JSON, an account on each line, and the injection
reads the file line by line. Between the two the text may be cut off anywhere.

## Main definitions

* `TextForms`: how the crates write and read hashes and amounts
* `dumpReward`: what is printed for a PoS epoch
* `parseRewardJson`: what is read from a text
* `injectFrom`: the injection of the reward in a text
* `HasEffect texts line effect`: what a line does to what was found before it, whole or cut off

## Main results

* `hasEffect_executionHashLine`, `hasEffect_lineOf`: what the lines of the dump do
-/

namespace Extractor

open Cfxpack
open Fallible (exec)
open Text (after afterPieces contains firstQuoted lines quotedBy trim)

/-- How the crates write and read hashes and amounts. -/
structure TextForms where
  hexEncode : Bytes → List Char
  displayU256 : U256 → List Char
  parseH256 : List Char → Except String H256
  parseAddress : List Char → Except String Address
  fromDecStr : List Char → Except String U256

/-- The mark around a word. -/
def quote : Char := '\x22'

/-! ## The dump -/

section Dump

variable (texts : TextForms) {T : PrimitiveTypes} (decoders : Decoders T)
  (asBytes : Bytes → Except String Bytes)

def posEpochLine (posEpoch : UInt64) : List Char :=
  "  \"pos_epoch\": ".toList ++ (epochDigits posEpoch ++ ",".toList)

def executionHashLine (execHash : Bytes) : List Char :=
  "  \"execution_epoch_hash\": \"0x".toList ++ (texts.hexEncode execHash ++ "\",".toList)

def accountLine (address posIdentifier : Bytes) (reward : U256) (comma : List Char) : List Char :=
  "    \x7b\"address\": \"0x".toList ++ (texts.hexEncode address ++
    ("\", \"pos_identifier\": \"0x".toList ++ (texts.hexEncode posIdentifier ++
      ("\", \"reward\": \"".toList ++ (texts.displayU256 reward ++ ("\"\x7d".toList ++ comma))))))

def println (line : List Char) : Fallible Failure (List Char) PUnit :=
  modify fun out => out ++ (line ++ ['\n'])

/-- `U256::from_big_endian`, which panics on more than 32 bytes. -/
def amountOf (bytes : Bytes) : Result U256 :=
  if bytes.length ≤ 32 then .ok (U256.fromBigEndian bytes) else .error .panic

/-- One round of the loop over the accounts. -/
def dumpAccount (rewards : Bytes) (count j : ℕ) : Fallible Failure (List Char) PUnit := do
  let a ← liftM (passOn (decoders.itemAt rewards j))
  let address ← liftM (context "address" (decoders.valAt asBytes a 0))
  let posIdentifier ← liftM (context "identifier" (decoders.valAt asBytes a 1))
  let rewardBytes ← liftM (context "reward" (decoders.valAt asBytes a 2))
  let reward ← liftM (amountOf rewardBytes)
  let comma := if j + 1 < count then ",".toList else []
  println (accountLine texts address posIdentifier reward comma)

/-- `get`: what is printed for a PoS epoch, as far as that goes. -/
def dumpReward (pow : PowDb) (posEpoch : UInt64) : Fallible Failure (List Char) PUnit := do
  let value ← liftM (okOr s!"no entry for PoS epoch {posEpoch.toNat}"
    (pow.rewardByPosEpoch.lookup (beBytes 8 posEpoch.toNat)))
  let execHash ← liftM (context "decode exec hash" (decoders.valAt asBytes value 1))
  let rewards ← liftM (context "decode account_rewards" (passOn (decoders.itemAt value 0)))
  let count ← liftM (passOn (decoders.itemCount rewards))
  println "\x7b".toList
  println (posEpochLine posEpoch)
  println (executionHashLine texts execHash)
  println "  \"account_rewards\": [".toList
  (List.range count).forM (dumpAccount texts decoders asBytes rewards count)
  println "  ]".toList
  println "\x7d".toList

end Dump

/-! ## The reader -/

section Reader

variable (texts : TextForms)

def executionHashKey : List Char := "execution_epoch_hash".toList
def addressKey : List Char := "address".toList
def posIdentifierKey : List Char := "pos_identifier".toList
def rewardKey : List Char := "reward".toList

/-- A word between its marks. -/
def quoted (word : List Char) : List Char := quote :: (word ++ [quote])

def extractJsonString (line key : List Char) : Option (List Char) := do
  let rest ← after (quote :: (key ++ [quote, ':'])) line
  firstQuoted quote rest

/-- `strip_prefix("0x").unwrap_or(..)`. -/
def stripHexPrefix (s : List Char) : List Char := (stripPrefix "0x".toList s).getD s

/-- The hash of the line, if it has one. -/
def readExecutionHash (execHash : H256) (line : List Char) : Result H256 :=
  if contains (quoted executionHashKey) line then
    match extractJsonString line executionHashKey with
    | some hashStr =>
      context "parse execution_epoch_hash" (passOn (texts.parseH256 (stripHexPrefix hashStr)))
    | none => pure execHash
  else pure execHash

/-- The account of the line, if it has one. -/
def readAccount (accountRewards : List PosRewardAccount) (line : List Char) :
    Result (List PosRewardAccount) :=
  if contains (quoted addressKey) line && contains (quoted posIdentifierKey) line &&
      contains (quoted rewardKey) line then do
    let addrStr ← okOr "missing address" (extractJsonString line addressKey)
    let idStr ← okOr "missing pos_identifier" (extractJsonString line posIdentifierKey)
    let rewardStr ← okOr "missing reward" (extractJsonString line rewardKey)
    let address ← context "parse address" (passOn (texts.parseAddress (stripHexPrefix addrStr)))
    let posIdentifier ← context "parse pos_identifier"
      (passOn (texts.parseH256 (stripHexPrefix idStr)))
    let reward ← context "parse reward" (passOn (texts.fromDecStr rewardStr))
    let account : PosRewardAccount := { address, posIdentifier, reward }
    pure (accountRewards ++ [account])
  else pure accountRewards

/-- One round of the loop over the lines: the hash and the accounts so far. -/
def readLine (found : H256 × List PosRewardAccount) (line : List Char) :
    Result (H256 × List PosRewardAccount) := do
  let line := trim line
  let execHash ← readExecutionHash texts found.1 line
  let accountRewards ← readAccount texts found.2 line
  pure (execHash, accountRewards)

def zeroHash : H256 := ⟨Vector.replicate 32 0⟩

def parseRewardJson (json : List Char) : Result PosRewardEntry := do
  let (execHash, accountRewards) ← (lines json).foldlM (readLine texts) (zeroHash, [])
  pure { accountRewards, executionEpochHash := execHash }

/-- `inject`, with the text of the file that holds the reward. -/
def injectFrom {T : PrimitiveTypes} (crates : Crates T) (json : List Char) (toEpoch : UInt64)
    (data : Bytes) : Option Bytes × Result Unit :=
  match parseRewardJson texts json with
  | .error e => (none, .error e)
  | .ok rewardEntry => inject crates rewardEntry toEpoch data

end Reader

/-! ## What is found in a line -/

/-- What the crates write, they read. -/
structure TextForms.Lawful (texts : TextForms) : Prop where
  isHex : ∀ bytes, ∀ c ∈ texts.hexEncode bytes, c ∈ "0123456789abcdef".toList
  isDecimal : ∀ amount, ∀ c ∈ texts.displayU256 amount, c.isDigit
  ne_nil : ∀ amount, texts.displayU256 amount ≠ []
  parseH256_hex : ∀ h : H256, texts.parseH256 (texts.hexEncode h.asBytes) = .ok h
  parseAddress_hex : ∀ a : Address, texts.parseAddress (texts.hexEncode a.asBytes) = .ok a
  fromDecStr_display : ∀ amount, texts.fromDecStr (texts.displayU256 amount) = .ok amount

theorem not_isBlank_quote : ¬ Text.isBlank quote := by decide

/-- The words that are looked for. -/
def keys : List (List Char) := [executionHashKey, addressKey, posIdentifierKey, rewardKey]

theorem quote_not_mem_key {key : List Char} (hkey : key ∈ keys) : quote ∉ key := by
  revert key
  decide

theorem not_isBlank_key {key : List Char} (hkey : key ∈ keys) : ∀ c ∈ key, ¬ Text.isBlank c := by
  have hkeys : ∀ key ∈ keys, key.all fun c => !Text.isBlank c := by decide
  intro c hc
  simpa using List.all_eq_true.mp (hkeys key hkey) c hc

theorem not_isBlank_colon : ∀ c ∈ [quote, ':'], ¬ Text.isBlank c :=
  List.forall_mem_cons.mpr ⟨not_isBlank_quote, List.forall_mem_singleton.mpr (by decide)⟩

/-- A word is found among the pieces that a mark follows. -/
theorem contains_quoted_iff {key front : List Char} {pieces : List (List Char)} (hkey : key ∈ keys)
    (hfront : quote ∉ front) (hpieces : ∀ piece ∈ pieces, quote ∉ piece) :
    contains (quoted key) (front ++ quotedBy quote pieces) ↔ key ∈ pieces.dropLast := by
  rw [contains, quoted, Text.after_skip hfront,
    Text.after_quotedBy (quote_not_mem_key hkey) [] hpieces, Text.isSome_afterPieces_nil]

/-- The value behind a key. -/
theorem extractJsonString_eq {key front value last : List Char} {before rest : List (List Char)}
    (hkey : key ∈ keys) (hfront : quote ∉ front)
    (hpieces : ∀ piece ∈ before ++ key :: ": ".toList :: value :: last :: rest, quote ∉ piece)
    (hbefore : key ∉ before) (hvalue : value ≠ []) :
    extractJsonString
      (front ++ quotedBy quote (before ++ key :: ": ".toList :: value :: last :: rest)) key =
        some value := by
  have hmark : quote ∉ value := hpieces value (by simp)
  rw [extractJsonString, Text.after_skip hfront,
    Text.after_quotedBy (quote_not_mem_key hkey) _ hpieces,
    Text.afterPieces_append hbefore (by simp)]
  have hcolon : [':'] <+: ": ".toList ++ quotedBy quote (value :: last :: rest) :=
    ⟨' ' :: quotedBy quote (value :: last :: rest), rfl⟩
  rw [afterPieces, if_pos ⟨rfl, hcolon⟩]
  have hblank : ∀ c ∈ [' '], Text.isBlank c := List.forall_mem_singleton.mpr (by decide)
  exact Text.firstQuoted_word not_isBlank_quote hblank hvalue hmark (last ++ quotedBy quote rest)

theorem extractJsonString_append {line key value : List Char}
    (h : extractJsonString line key = some value) (more : List Char) :
    extractJsonString (line ++ more) key = some value := by
  obtain ⟨rest, hrest, hvalue⟩ := Option.bind_eq_some_iff.mp h
  apply Option.bind_eq_some_iff.mpr
  exact ⟨rest ++ more, Text.after_append hrest more,
    Text.firstQuoted_append not_isBlank_quote hvalue more⟩

/-- Blanks around the line do not matter. -/
theorem contains_quoted_trim {key : List Char} (hkey : key ∈ keys) (line : List Char) :
    contains (quoted key) (trim line) = contains (quoted key) line := by
  apply Text.contains_trim
  rw [List.forall_mem_cons, List.forall_mem_append]
  exact ⟨not_isBlank_quote, not_isBlank_key hkey,
    List.forall_mem_singleton.mpr not_isBlank_quote⟩

theorem extractJsonString_trim {key : List Char} (hkey : key ∈ keys) (line : List Char) :
    extractJsonString (trim line) key = extractJsonString line key := by
  have hpattern : ∀ c ∈ quote :: (key ++ [quote, ':']), ¬ Text.isBlank c := by
    rw [List.forall_mem_cons, List.forall_mem_append]
    exact ⟨not_isBlank_quote, not_isBlank_key hkey, not_isBlank_colon⟩
  obtain ⟨back, hback, hafter⟩ := Text.after_trim hpattern line
  unfold extractJsonString
  rw [hafter]
  cases after (quote :: (key ++ [quote, ':'])) (trim line) with
  | none => rfl
  | some rest => exact (Text.firstQuoted_append_of_blank hback rest).symm

variable {texts : TextForms}

/-- A line is read as if it had no blanks around it. -/
theorem readLine_eq (found : H256 × List PosRewardAccount) (line : List Char) :
    readLine texts found line = (do
      let execHash ← readExecutionHash texts found.1 line
      let accountRewards ← readAccount texts found.2 line
      pure (execHash, accountRewards)) := by
  have hkeys : ∀ key ∈ keys, contains (quoted key) (trim line) = contains (quoted key) line ∧
      extractJsonString (trim line) key = extractJsonString line key := fun key hkey =>
    ⟨contains_quoted_trim hkey line, extractJsonString_trim hkey line⟩
  have hhash := hkeys executionHashKey (by decide)
  have haddress := hkeys addressKey (by decide)
  have hidentifier := hkeys posIdentifierKey (by decide)
  have hreward := hkeys rewardKey (by decide)
  unfold readLine readExecutionHash readAccount
  simp only [hhash, haddress, hidentifier, hreward]

/-! ## Lines that are cut off -/

theorem contains_of_part {key part line : List Char} (hpart : part <+: line)
    (h : contains (quoted key) part) : contains (quoted key) line := by
  obtain ⟨more, rfl⟩ := hpart
  exact Text.contains_append h more

theorem extractJsonString_of_part {key part line value : List Char} (hpart : part <+: line)
    (h : extractJsonString part key = some value) : extractJsonString line key = some value := by
  obtain ⟨more, rfl⟩ := hpart
  exact extractJsonString_append h more

/-- A line that is cut off has its hash or none. -/
theorem readExecutionHash_of_part {part line : List Char} (hpart : part <+: line)
    (execHash : H256) : readExecutionHash texts execHash part = .ok execHash ∨
      readExecutionHash texts execHash part = readExecutionHash texts execHash line := by
  unfold readExecutionHash
  by_cases hfound : contains (quoted executionHashKey) part
  · rw [if_pos hfound, if_pos (contains_of_part hpart hfound)]
    cases hextract : extractJsonString part executionHashKey with
    | none => exact Or.inl rfl
    | some value =>
      rw [extractJsonString_of_part hpart hextract]
      exact Or.inr rfl
  · rw [if_neg hfound]
    exact Or.inl rfl

/-- A line without accounts, cut off or not. -/
theorem readAccount_of_not_contains {part line : List Char} (hpart : part <+: line)
    (h : ¬ contains (quoted addressKey) line) (accountRewards : List PosRewardAccount) :
    readAccount texts accountRewards part = .ok accountRewards := by
  have hnone : contains (quoted addressKey) part = false :=
    Bool.eq_false_iff.mpr (mt (contains_of_part hpart) h)
  rw [readAccount, hnone]
  rfl

/-- What a line of the dump does to what was found before it, whole or cut off. -/
structure HasEffect (texts : TextForms) (line : List Char)
    (effect : H256 × List PosRewardAccount → H256 × List PosRewardAccount) : Prop where
  isLine : Text.IsLine line
  whole : ∀ found, readLine texts found line = .ok (effect found)
  part : ∀ found part, part <+: line →
    readLine texts found part = .ok found ∨ readLine texts found part = .ok (effect found) ∨
      readLine texts found part = .error (.error "missing reward")

/-- A piece of a line, without a mark. -/
def IsPlain (piece : List Char) : Prop := quote ∉ piece ∧ '\n' ∉ piece ∧ '\r' ∉ piece

instance IsPlain.instDecidable (piece : List Char) : Decidable (IsPlain piece) :=
  inferInstanceAs (Decidable (_ ∧ _))

theorem isPlain_append {a b : List Char} (ha : IsPlain a) (hb : IsPlain b) : IsPlain (a ++ b) := by
  simp only [IsPlain, List.mem_append, not_or]
  exact ⟨⟨ha.1, hb.1⟩, ⟨ha.2.1, hb.2.1⟩, ha.2.2, hb.2.2⟩

/-- Plain pieces make a line. -/
theorem isLine_of_isPlain {front : List Char} {pieces : List (List Char)}
    (hplain : ∀ piece ∈ front :: pieces, IsPlain piece) :
    Text.IsLine (front ++ quotedBy quote pieces) := by
  obtain ⟨hfront, hpieces⟩ := List.forall_mem_cons.mp hplain
  have hnot : ∀ c, c ≠ quote → c ∉ front → (∀ piece ∈ pieces, c ∉ piece) →
      c ∉ front ++ quotedBy quote pieces := by
    intro c hc hfront hpieces hmem
    rcases List.mem_append.mp hmem with h | h
    · exact hfront h
    · obtain ⟨piece, hpiece, hmem⟩ := List.mem_flatMap.mp h
      exact (List.mem_cons.mp hmem).elim hc (hpieces piece hpiece)
  exact ⟨hnot _ (by decide) hfront.2.1 fun piece h => (hpieces piece h).2.1,
    hnot _ (by decide) hfront.2.2 fun piece h => (hpieces piece h).2.2⟩

section Lines

variable {front : List Char} {pieces : List (List Char)}
  (hplain : ∀ piece ∈ front :: pieces, IsPlain piece)
include hplain

theorem contains_iff {key : List Char} (hkey : key ∈ keys) :
    contains (quoted key) (front ++ quotedBy quote pieces) ↔ key ∈ pieces.dropLast := by
  obtain ⟨hfront, hpieces⟩ := List.forall_mem_cons.mp hplain
  exact contains_quoted_iff hkey hfront.1 fun piece h => (hpieces piece h).1

/-- A line in which there is neither a hash nor an account. -/
theorem hasEffect_id (hhash : executionHashKey ∉ pieces.dropLast)
    (haddress : addressKey ∉ pieces.dropLast) :
    HasEffect texts (front ++ quotedBy quote pieces) id := by
  have hread : ∀ found part, part <+: front ++ quotedBy quote pieces →
      readLine texts found part = .ok found := by
    intro found part hpart
    have hnohash : ¬ contains (quoted executionHashKey) part := fun h =>
      hhash ((contains_iff hplain (by decide)).mp (contains_of_part hpart h))
    have hnoaddress : ¬ contains (quoted addressKey) (front ++ quotedBy quote pieces) := fun h =>
      haddress ((contains_iff hplain (by decide)).mp h)
    rw [readLine_eq, readExecutionHash, if_neg hnohash,
      readAccount_of_not_contains hpart hnoaddress]
    rfl
  exact ⟨isLine_of_isPlain hplain, fun found => hread found _ List.prefix_rfl,
    fun found part hpart => Or.inl (hread found part hpart)⟩

end Lines

/-! ## The lines of the dump -/

section DumpLines

/-- A text of characters that differ from a mark and from the ends of lines. -/
theorem isPlain_of_forall {text : List Char} {p : Char → Prop} (htext : ∀ c ∈ text, p c)
    (hquote : ¬ p quote) (hfeed : ¬ p '\n') (hreturn : ¬ p '\r') : IsPlain text :=
  ⟨fun h => hquote (htext _ h), fun h => hfeed (htext _ h), fun h => hreturn (htext _ h)⟩

theorem isPlain_of_isDigit {text : List Char} (htext : ∀ c ∈ text, c.isDigit) : IsPlain text :=
  isPlain_of_forall htext (by decide) (by decide) (by decide)

theorem posEpochLine_eq (posEpoch : UInt64) : posEpochLine posEpoch = "  ".toList ++
    quotedBy quote ["pos_epoch".toList, ": ".toList ++ (epochDigits posEpoch ++ ",".toList)] := by
  have hstart : "  \"pos_epoch\": ".toList =
      "  ".toList ++ quote :: ("pos_epoch".toList ++ quote :: ": ".toList) := by decide
  unfold posEpochLine
  rw [hstart]
  simp only [Text.quotedBy_cons, Text.quotedBy_nil, List.append_assoc, List.cons_append,
    List.append_nil]

theorem executionHashLine_eq (execHash : Bytes) : executionHashLine texts execHash = "  ".toList ++
    quotedBy quote
      [executionHashKey, ": ".toList, "0x".toList ++ texts.hexEncode execHash, ",".toList] := by
  have hstart : "  \"execution_epoch_hash\": \"0x".toList = "  ".toList ++
      quote :: (executionHashKey ++ quote :: (": ".toList ++ quote :: "0x".toList)) := by decide
  have hend : "\",".toList = quote :: ",".toList := by decide
  unfold executionHashLine
  rw [hstart, hend]
  simp only [Text.quotedBy_cons, Text.quotedBy_nil, List.append_assoc, List.cons_append,
    List.append_nil]

/-- The pieces of the line of an account, up to its amount. -/
def accountPieces (texts : TextForms) (address posIdentifier : Bytes) : List (List Char) :=
  [addressKey, ": ".toList, "0x".toList ++ texts.hexEncode address, ", ".toList,
    posIdentifierKey, ": ".toList, "0x".toList ++ texts.hexEncode posIdentifier, ", ".toList]

theorem accountLine_eq (address posIdentifier : Bytes) (reward : U256) (comma : List Char) :
    accountLine texts address posIdentifier reward comma = "    \x7b".toList ++
      quotedBy quote (accountPieces texts address posIdentifier ++
        [rewardKey, ": ".toList, texts.displayU256 reward, "\x7d".toList ++ comma]) := by
  have haddress : "    \x7b\"address\": \"0x".toList = "    \x7b".toList ++
      quote :: (addressKey ++ quote :: (": ".toList ++ quote :: "0x".toList)) := by decide
  have hidentifier : "\", \"pos_identifier\": \"0x".toList = quote :: (", ".toList ++
      quote :: (posIdentifierKey ++ quote :: (": ".toList ++ quote :: "0x".toList))) := by decide
  have hreward : "\", \"reward\": \"".toList = quote :: (", ".toList ++
      quote :: (rewardKey ++ quote :: (": ".toList ++ quote :: []))) := by decide
  have hend : "\"\x7d".toList = quote :: "\x7d".toList := by decide
  unfold accountLine accountPieces
  rw [haddress, hidentifier, hreward, hend]
  simp only [Text.quotedBy_cons, Text.quotedBy_nil, List.append_assoc, List.cons_append,
    List.append_nil, List.nil_append]

theorem isPlain_epochDigits (posEpoch : UInt64) : IsPlain (epochDigits posEpoch) :=
  isPlain_of_isDigit fun _ => isDigit_of_mem_epochDigits

theorem hasEffect_posEpochLine (posEpoch : UInt64) :
    HasEffect texts (posEpochLine posEpoch) id := by
  have hlast : IsPlain (": ".toList ++ (epochDigits posEpoch ++ ",".toList)) := by
    apply isPlain_append
    · decide
    · exact isPlain_append (isPlain_epochDigits posEpoch) (by decide)
  rw [posEpochLine_eq]
  apply hasEffect_id
  · simp only [List.forall_mem_cons]
    exact ⟨by decide, by decide, hlast, by simp⟩
  · show executionHashKey ∉ ["pos_epoch".toList]
    decide
  · show addressKey ∉ ["pos_epoch".toList]
    decide

theorem stripHexPrefix_eq (digits : List Char) :
    stripHexPrefix ("0x".toList ++ digits) = digits := by
  rw [stripHexPrefix, stripPrefix_eq_some.mpr rfl]
  rfl

/-- What begins with digits is no key. -/
theorem hexWord_ne_key (digits : List Char) {key : List Char} (hkey : key ∈ keys) :
    "0x".toList ++ digits ≠ key := by
  intro heq
  have hhead : ∀ key ∈ keys, key.head? ≠ some '0' := by decide
  exact hhead key hkey (congrArg List.head? heq.symm)

variable (hlawful : texts.Lawful)
include hlawful

theorem isPlain_hexEncode (bytes : Bytes) : IsPlain ("0x".toList ++ texts.hexEncode bytes) := by
  apply isPlain_append
  · decide
  · apply isPlain_of_forall (hlawful.isHex bytes) <;> decide

/-- **The line of a hash.** -/
theorem hasEffect_executionHashLine (execHash : H256) :
    HasEffect texts (executionHashLine texts execHash.asBytes) fun found =>
      (execHash, found.2) := by
  have hplain : ∀ piece ∈ ["  ".toList, executionHashKey, ": ".toList,
      "0x".toList ++ texts.hexEncode execHash.asBytes, ",".toList], IsPlain piece := by
    simp only [List.forall_mem_cons]
    exact ⟨by decide, by decide, by decide, isPlain_hexEncode hlawful _, by decide, by simp⟩
  obtain ⟨hfront, hpieces⟩ := List.forall_mem_cons.mp hplain
  have hhash : ∀ found, readExecutionHash texts found
      (executionHashLine texts execHash.asBytes) = .ok execHash := by
    intro found
    have hfound : contains (quoted executionHashKey)
        (executionHashLine texts execHash.asBytes) := by
      rw [executionHashLine_eq, contains_iff hplain (by decide)]
      simp
    have hvalue : extractJsonString (executionHashLine texts execHash.asBytes) executionHashKey =
        some ("0x".toList ++ texts.hexEncode execHash.asBytes) := by
      rw [executionHashLine_eq]
      apply @extractJsonString_eq executionHashKey _ _ ",".toList [] [] (by decide) hfront.1
        (fun piece h => (hpieces piece h).1)
      · simp
      · simp
    rw [readExecutionHash, if_pos hfound, hvalue]
    simp only [stripHexPrefix_eq, hlawful.parseH256_hex, passOn_ok, context]
  have hnoaddress : ¬ contains (quoted addressKey) (executionHashLine texts execHash.asBytes) := by
    rw [executionHashLine_eq, contains_iff hplain (by decide)]
    simp only [List.dropLast_cons_cons, List.dropLast_singleton, List.mem_cons, List.not_mem_nil,
      or_false, not_or]
    exact ⟨by decide, by decide, (hexWord_ne_key _ (by decide)).symm⟩
  refine ⟨?_, ?_, ?_⟩
  · rw [executionHashLine_eq]
    exact isLine_of_isPlain hplain
  · intro found
    rw [readLine_eq, hhash, readAccount_of_not_contains List.prefix_rfl hnoaddress]
    rfl
  · intro found part hpart
    rw [readLine_eq, readAccount_of_not_contains hpart hnoaddress]
    rcases readExecutionHash_of_part hpart found.1 with h | h
    · rw [h]
      exact Or.inl rfl
    · rw [h, hhash]
      exact Or.inr (Or.inl rfl)

theorem displayU256_ne_key (amount : U256) {key : List Char} (hkey : key ∈ keys) :
    texts.displayU256 amount ≠ key := by
  intro heq
  have hkeys : ∀ key ∈ keys, ¬ key.all Char.isDigit := by decide
  exact hkeys key hkey (List.all_eq_true.mpr (heq ▸ hlawful.isDecimal amount))

/-- The line of an account. -/
def lineOf (texts : TextForms) (account : PosRewardAccount) (comma : List Char) : List Char :=
  accountLine texts account.address.asBytes account.posIdentifier.asBytes account.reward comma

section Account

variable (account : PosRewardAccount)

/-- The pieces of the line of an account, up to its amount. -/
def piecesOf (texts : TextForms) (account : PosRewardAccount) : List (List Char) :=
  accountPieces texts account.address.asBytes account.posIdentifier.asBytes

/-- The pieces of the amount. -/
def amountPieces (texts : TextForms) (account : PosRewardAccount) (comma : List Char) :
    List (List Char) :=
  [rewardKey, ": ".toList, texts.displayU256 account.reward, "\x7d".toList ++ comma]

omit hlawful in
theorem lineOf_eq (comma : List Char) : lineOf texts account comma = "    \x7b".toList ++
    quotedBy quote (piecesOf texts account ++ amountPieces texts account comma) :=
  accountLine_eq _ _ _ _

omit hlawful in
theorem rewardKey_not_mem_piecesOf : rewardKey ∉ piecesOf texts account := by
  simp only [piecesOf, accountPieces, List.mem_cons, List.not_mem_nil, or_false, not_or]
  exact ⟨by decide, by decide, (hexWord_ne_key _ (by decide)).symm, by decide, by decide,
    by decide, (hexWord_ne_key _ (by decide)).symm, by decide⟩

theorem isPlain_piecesOf {tail : List (List Char)} (htail : ∀ piece ∈ tail, IsPlain piece) :
    ∀ piece ∈ "    \x7b".toList :: (piecesOf texts account ++ tail), IsPlain piece := by
  simp only [piecesOf, accountPieces, List.cons_append, List.nil_append, List.forall_mem_cons]
  exact ⟨by decide, by decide, by decide, isPlain_hexEncode hlawful _, by decide, by decide,
    by decide, isPlain_hexEncode hlawful _, by decide, htail⟩

theorem isPlain_amountPieces {comma : List Char} (hcomma : IsPlain comma) :
    ∀ piece ∈ amountPieces texts account comma, IsPlain piece := by
  have hlast : IsPlain ("\x7d".toList ++ comma) := by
    apply isPlain_append
    · decide
    · exact hcomma
  simp only [amountPieces, List.forall_mem_cons]
  exact ⟨by decide, by decide, isPlain_of_isDigit (hlawful.isDecimal _), hlast, by simp⟩

/-- The address and the identifier are found, whatever follows them. -/
theorem extractJsonString_address {tail : List (List Char)}
    (htail : ∀ piece ∈ tail, IsPlain piece) :
    extractJsonString ("    \x7b".toList ++ quotedBy quote (piecesOf texts account ++ tail))
      addressKey = some ("0x".toList ++ texts.hexEncode account.address.asBytes) := by
  obtain ⟨hfront, hpieces⟩ := List.forall_mem_cons.mp (isPlain_piecesOf hlawful account htail)
  apply @extractJsonString_eq addressKey _ _ ", ".toList [] _ (by decide) hfront.1
    fun piece h => (hpieces piece h).1
  · exact List.not_mem_nil
  · exact List.cons_ne_nil _ _

theorem extractJsonString_posIdentifier {tail : List (List Char)}
    (htail : ∀ piece ∈ tail, IsPlain piece) :
    extractJsonString ("    \x7b".toList ++ quotedBy quote (piecesOf texts account ++ tail))
      posIdentifierKey = some ("0x".toList ++ texts.hexEncode account.posIdentifier.asBytes) := by
  obtain ⟨hfront, hpieces⟩ := List.forall_mem_cons.mp (isPlain_piecesOf hlawful account htail)
  apply @extractJsonString_eq posIdentifierKey _ _ ", ".toList
    [addressKey, ": ".toList, "0x".toList ++ texts.hexEncode account.address.asBytes, ", ".toList] _
    (by decide) hfront.1 fun piece h => (hpieces piece h).1
  · simp only [List.mem_cons, List.not_mem_nil, or_false, not_or]
    exact ⟨by decide, by decide, (hexWord_ne_key _ (by decide)).symm, by decide⟩
  · exact List.cons_ne_nil _ _

theorem extractJsonString_reward {comma : List Char} (hcomma : IsPlain comma) :
    extractJsonString (lineOf texts account comma) rewardKey =
      some (texts.displayU256 account.reward) := by
  obtain ⟨hfront, hpieces⟩ := List.forall_mem_cons.mp
    (isPlain_piecesOf hlawful account (isPlain_amountPieces hlawful account hcomma))
  rw [lineOf_eq]
  apply @extractJsonString_eq rewardKey _ _ ("\x7d".toList ++ comma) (piecesOf texts account) []
    (by decide) hfront.1 fun piece h => (hpieces piece h).1
  · exact rewardKey_not_mem_piecesOf account
  · exact hlawful.ne_nil account.reward

theorem readAccount_of_values {line : List Char} (haddress : contains (quoted addressKey) line)
    (hidentifier : contains (quoted posIdentifierKey) line)
    (hreward : contains (quoted rewardKey) line)
    (haddr : extractJsonString line addressKey =
      some ("0x".toList ++ texts.hexEncode account.address.asBytes))
    (hid : extractJsonString line posIdentifierKey =
      some ("0x".toList ++ texts.hexEncode account.posIdentifier.asBytes))
    (hamount : extractJsonString line rewardKey = some (texts.displayU256 account.reward))
    (accountRewards : List PosRewardAccount) :
    readAccount texts accountRewards line = .ok (accountRewards ++ [account]) := by
  unfold readAccount
  rw [haddress, hidentifier, hreward, haddr, hid, hamount]
  simp only [okOr, Except.ok_bind, stripHexPrefix_eq, hlawful.parseAddress_hex,
    hlawful.parseH256_hex, hlawful.fromDecStr_display, passOn_ok, context, Bool.and_self, if_true,
    Except.pure_def]

variable {comma : List Char} (hcomma : IsPlain comma)
include hcomma

/-- The words of the line. -/
theorem contains_lineOf_iff {key : List Char} (hkey : key ∈ keys) :
    contains (quoted key) (lineOf texts account comma) ↔ key ≠ executionHashKey := by
  have hplain := isPlain_piecesOf hlawful account (isPlain_amountPieces hlawful account hcomma)
  have hlast : (piecesOf texts account ++ amountPieces texts account comma).dropLast =
      piecesOf texts account ++ [rewardKey, ": ".toList, texts.displayU256 account.reward] := rfl
  rw [lineOf_eq, contains_iff hplain hkey, hlast]
  simp only [piecesOf, accountPieces, List.cons_append, List.nil_append, List.mem_cons,
    List.not_mem_nil, or_false, (hexWord_ne_key _ hkey).symm,
    (displayU256_ne_key hlawful _ hkey).symm, false_or]
  revert key
  decide

/-- The line up to the word before its amount. -/
def headOf (texts : TextForms) (account : PosRewardAccount) : List Char :=
  "    \x7b".toList ++ quotedBy quote (piecesOf texts account ++ [rewardKey, []])

/-- A part with the word before the amount has everything before it. -/
theorem headOf_isPrefix {part : List Char} (hpart : part <+: lineOf texts account comma)
    (hreward : contains (quoted rewardKey) part) : headOf texts account <+: part := by
  obtain ⟨more, hmore⟩ := hpart
  obtain ⟨rest, hrest⟩ := Option.isSome_iff_exists.mp hreward
  obtain ⟨hfront, hpieces⟩ := List.forall_mem_cons.mp
    (isPlain_piecesOf hlawful account (isPlain_amountPieces hlawful account hcomma))
  have hline : after (quoted rewardKey) (lineOf texts account comma) = some (": ".toList ++
      quotedBy quote [texts.displayU256 account.reward, "\x7d".toList ++ comma]) := by
    have hne : amountPieces texts account comma ≠ [] := List.cons_ne_nil _ _
    rw [lineOf_eq, quoted, Text.after_skip hfront.1,
      Text.after_quotedBy (quote_not_mem_key (by decide)) [] fun piece h => (hpieces piece h).1,
      Text.afterPieces_append (rewardKey_not_mem_piecesOf account) hne, amountPieces,
      afterPieces, if_pos ⟨rfl, List.nil_prefix⟩]
    rfl
  have hsplit : lineOf texts account comma = headOf texts account ++ (": ".toList ++
      quotedBy quote [texts.displayU256 account.reward, "\x7d".toList ++ comma]) := by
    rw [lineOf_eq, headOf, quotedBy, List.flatMap_append, quotedBy, List.flatMap_append]
    simp only [amountPieces, List.flatMap_cons, List.flatMap_nil, quotedBy, List.append_assoc,
      List.cons_append, List.append_nil, List.nil_append]
  rw [← hmore, Text.after_append hrest more] at hline
  rw [← hmore, ← Option.some.inj hline, ← List.append_assoc] at hsplit
  exact ⟨rest, (List.append_cancel_right hsplit).symm⟩

/-- An account that is cut off is read, or there is none, or the amount is missing. -/
theorem readAccount_of_part {part : List Char} (hpart : part <+: lineOf texts account comma)
    (accountRewards : List PosRewardAccount) :
    readAccount texts accountRewards part = .ok accountRewards ∨
      readAccount texts accountRewards part = .ok (accountRewards ++ [account]) ∨
        readAccount texts accountRewards part = .error (.error "missing reward") := by
  by_cases hreward : contains (quoted rewardKey) part
  · have hhead := headOf_isPrefix hlawful account hcomma hpart hreward
    have htail : ∀ piece ∈ [rewardKey, []], IsPlain piece := by decide
    have hplain := isPlain_piecesOf hlawful account htail
    have hcontains : ∀ key ∈ keys, key ∈ (piecesOf texts account ++ [rewardKey, []]).dropLast →
        contains (quoted key) part := fun key hkey hmem =>
      contains_of_part hhead ((contains_iff hplain hkey).mpr hmem)
    have haddress := hcontains addressKey (by decide) List.mem_cons_self
    have hidentifier := hcontains posIdentifierKey (by decide)
      (.tail _ (.tail _ (.tail _ (.tail _ (.head _)))))
    have haddr := extractJsonString_of_part hhead
      (extractJsonString_address hlawful account htail)
    have hid := extractJsonString_of_part hhead
      (extractJsonString_posIdentifier hlawful account htail)
    cases hamount : extractJsonString part rewardKey with
    | none =>
      unfold readAccount
      rw [haddress, hidentifier, hreward, haddr, hid, hamount]
      exact Or.inr (Or.inr rfl)
    | some amount =>
      have hsame := extractJsonString_of_part hpart hamount
      rw [extractJsonString_reward hlawful account hcomma] at hsame
      obtain rfl := Option.some.inj hsame
      exact Or.inr (Or.inl (readAccount_of_values hlawful account haddress hidentifier hreward haddr
        hid hamount accountRewards))
  · rw [readAccount, Bool.eq_false_iff.mpr hreward, Bool.and_false]
    exact Or.inl rfl

/-- **The line of an account.** When it is cut off between the amount and its mark, the amount is
missing. -/
theorem hasEffect_lineOf : HasEffect texts (lineOf texts account comma) fun found =>
    (found.1, found.2 ++ [account]) := by
  have hamountPieces := isPlain_amountPieces hlawful account hcomma
  have hnohash : ¬ contains (quoted executionHashKey) (lineOf texts account comma) := fun h =>
    (contains_lineOf_iff hlawful account hcomma (by decide)).mp h rfl
  have hkeys : ∀ key ∈ keys, key ≠ executionHashKey →
      contains (quoted key) (lineOf texts account comma) := fun key hkey hne =>
    (contains_lineOf_iff hlawful account hcomma hkey).mpr hne
  have hwhole : ∀ accountRewards, readAccount texts accountRewards (lineOf texts account comma) =
      .ok (accountRewards ++ [account]) := by
    apply readAccount_of_values hlawful account (hkeys _ (by decide) (by decide))
      (hkeys _ (by decide) (by decide)) (hkeys _ (by decide) (by decide))
    · rw [lineOf_eq]
      exact extractJsonString_address hlawful account hamountPieces
    · rw [lineOf_eq]
      exact extractJsonString_posIdentifier hlawful account hamountPieces
    · exact extractJsonString_reward hlawful account hcomma
  refine ⟨?_, ?_, ?_⟩
  · rw [lineOf_eq]
    exact isLine_of_isPlain (isPlain_piecesOf hlawful account hamountPieces)
  · intro found
    rw [readLine_eq, readExecutionHash, if_neg hnohash, hwhole]
    rfl
  · intro found part hpart
    rw [readLine_eq, readExecutionHash, if_neg (mt (contains_of_part hpart) hnohash)]
    rcases readAccount_of_part hlawful account hcomma hpart found.2 with h | h | h
    · rw [h]
      exact Or.inl rfl
    · rw [h]
      exact Or.inr (Or.inl rfl)
    · rw [h]
      exact Or.inr (Or.inr rfl)

end Account

end DumpLines

end Extractor
