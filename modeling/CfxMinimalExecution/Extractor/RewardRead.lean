import CfxMinimalExecution.Extractor.RewardText

/-!
# What is read from the text of a reward

The dump prints a record line by line, and the reader goes through the lines. A text that is cut off
ends with the beginning of a line.

## Main definitions

* `rewardLines`: the lines of a record
* `effectsOf`: what they do to what was found before them
* `ReadsBytes`: items that are read as hashes have their bytes
* `plainTexts`: the text forms of the crates, in a plain format

## Main results

* `parseRewardJson_rewardLines`, `parseRewardJson_of_part`: what is read from the lines, whole or
  cut off
* `exec_dumpReward`: what is printed
* `rewardText_read`: what is printed is read
-/

namespace Extractor

open Cfxpack
open Fallible (exec)
open Text (lines quotedBy unlines)

variable {texts : TextForms}

/-! ## The text of a record -/

/-- What is found in some lines, one after the other. -/
def applyAll {α : Type} (effects : List (α → α)) (a : α) : α :=
  effects.foldl (fun a effect => effect a) a

/-- The lines are read one after the other. -/
theorem foldlM_readLine {ls : List (List Char)}
    {effects : List (H256 × List PosRewardAccount → H256 × List PosRewardAccount)}
    (h : List.Forall₂ (HasEffect texts) ls effects) (found : H256 × List PosRewardAccount) :
    ls.foldlM (readLine texts) found = .ok (applyAll effects found) := by
  induction h generalizing found with
  | nil => rfl
  | cons hline _ ih =>
    rw [List.foldlM_cons, hline.whole, Except.ok_bind, ih]
    rfl

theorem isLine_of_hasEffects {ls : List (List Char)}
    {effects : List (H256 × List PosRewardAccount → H256 × List PosRewardAccount)}
    (h : List.Forall₂ (HasEffect texts) ls effects) : ∀ l ∈ ls, Text.IsLine l := by
  induction h with
  | nil => exact fun l hl => absurd hl List.not_mem_nil
  | cons hline _ ih =>
    intro l hl
    rcases List.mem_cons.mp hl with rfl | hl
    · exact hline.isLine
    · exact ih l hl

/-- **Lines that are cut off anywhere** are read up to the last whole line, or with what is left of
the next one, or there the amount is missing. -/
theorem foldlM_readLine_of_part {ls : List (List Char)}
    {effects : List (H256 × List PosRewardAccount → H256 × List PosRewardAccount)}
    (h : List.Forall₂ (HasEffect texts) ls effects) {text : List Char} (htext : text <+: unlines ls)
    (found : H256 × List PosRewardAccount) :
    (lines text).foldlM (readLine texts) found = .error (.error "missing reward") ∨
      ∃ n ≤ (lines text).length, (lines text).length ≤ n + 1 ∧
        (lines text).foldlM (readLine texts) found = .ok (applyAll (effects.take n) found) := by
  obtain ⟨n, part, hn, rfl, hpart⟩ := Text.prefix_unlines htext
  have hisLine := isLine_of_hasEffects h
  have hfeed : '\n' ∉ part := by
    rcases hpart with rfl | ⟨l, hl, hpart⟩
    · exact List.not_mem_nil
    · exact fun hmem => (hisLine l (List.mem_of_getElem? hl)).1 (hpart.subset hmem)
  rw [Text.lines_unlines_append (fun l hl => hisLine l (List.mem_of_mem_take hl)) hfeed]
  have hwhole := foldlM_readLine (List.forall₂_take n h) found
  have hlength : (ls.take n).length = n := List.length_take_of_le hn
  rcases hpart with rfl | ⟨l, hl, hpart⟩
  · refine Or.inr ⟨n, ?_, ?_, ?_⟩
    · simp [hlength]
    · simp [hlength]
    · simpa using hwhole
  · by_cases hempty : part.isEmpty
    · rw [if_pos hempty, List.append_nil]
      exact Or.inr ⟨n, hlength.ge, hlength.le.trans (Nat.le_succ n), hwhole⟩
    · rw [if_neg hempty, List.foldlM_append, hwhole, Except.ok_bind, List.length_append, hlength]
      obtain ⟨hlt, rfl⟩ := List.getElem?_eq_some_iff.mp hl
      have hlt' : n < effects.length := h.length_eq ▸ hlt
      have heffect : HasEffect texts ls[n] effects[n] :=
        List.forall₂_iff_get.mp h |>.2 n hlt hlt'
      have hsingle : ∀ found, [part].foldlM (readLine texts) found = readLine texts found part := by
        intro found
        rw [List.foldlM_cons]
        exact bind_pure _
      rw [hsingle]
      rcases heffect.part (applyAll (effects.take n) found) part hpart with hread | hread | hread
      · exact Or.inr ⟨n, Nat.le_succ n, le_rfl, hread⟩
      · refine Or.inr ⟨n + 1, le_rfl, Nat.le_succ _, ?_⟩
        rw [hread, List.take_succ_eq_append_getElem hlt', applyAll, applyAll, List.foldl_append]
        rfl
      · exact Or.inl hread

/-- The lines of the accounts. -/
def accountLines (texts : TextForms) : List PosRewardAccount → List (List Char)
  | [] => []
  | account :: rest =>
    lineOf texts account (if rest = [] then [] else ",".toList) :: accountLines texts rest

/-- The lines of a record. -/
def rewardLines (texts : TextForms) (posEpoch : UInt64) (record : PosRewardEntry) :
    List (List Char) :=
  ["\x7b".toList, posEpochLine posEpoch,
    executionHashLine texts record.executionEpochHash.asBytes, "  \"account_rewards\": [".toList] ++
      (accountLines texts record.accountRewards ++ ["  ]".toList, "\x7d".toList])

/-- What the lines of a record do to what was found before them. -/
def effectsOf (record : PosRewardEntry) :
    List (H256 × List PosRewardAccount → H256 × List PosRewardAccount) :=
  [id, id, fun found => (record.executionEpochHash, found.2), id] ++
    (record.accountRewards.map (fun account found => (found.1, found.2 ++ [account])) ++ [id, id])

/-- What is found in the beginning of a record. -/
theorem applyAll_take_effectsOf (record : PosRewardEntry) (n : ℕ) :
    applyAll ((effectsOf record).take n) (zeroHash, []) =
      (if n ≤ 2 then zeroHash else record.executionEpochHash,
        record.accountRewards.take (n - 4)) := by
  have hpush : ∀ (accounts : List PosRewardAccount) (found : H256 × List PosRewardAccount),
      applyAll (accounts.map fun account found => (found.1, found.2 ++ [account])) found =
        (found.1, found.2 ++ accounts) := by
    intro accounts
    induction accounts with
    | nil => exact fun found => by rw [List.append_nil]; rfl
    | cons account accounts ih =>
      intro found
      rw [List.map_cons, applyAll, List.foldl_cons, ← applyAll, ih, List.append_assoc]
      rfl
  have hid : ∀ (k : ℕ) (found : H256 × List PosRewardAccount),
      applyAll ([id, id].take k) found = found
    | 0, _ | 1, _ => rfl
    | k + 2, found => by
      rw [List.take_of_length_le (by simp)]
      rfl
  rcases n with _ | _ | _ | _ | n
  · rfl
  · rfl
  · rfl
  · rfl
  · have htake : (effectsOf record).take (n + 4) =
        [id, id, fun found => (record.executionEpochHash, found.2), id] ++
          ((record.accountRewards.take n).map
            (fun account found => (found.1, found.2 ++ [account])) ++
              [id, id].take (n - record.accountRewards.length)) := by
      rw [effectsOf, List.take_append, List.take_append, List.map_take, List.length_map,
        List.take_of_length_le (by simp)]
      rfl
    have hsub : n + 1 + 1 + 1 + 1 - 4 = n := by omega
    rw [htake, applyAll, List.foldl_append, List.foldl_append, ← applyAll, ← applyAll, ← applyAll,
      hpush, hid, if_neg (by omega), hsub]
    rfl

section Record

variable (hlawful : texts.Lawful)

/-- A line without words. -/
theorem hasEffect_of_isPlain {line : List Char} (hplain : IsPlain line) :
    HasEffect texts line id := by
  have heffect := @hasEffect_id texts line [] (by simpa using hplain) List.not_mem_nil
    List.not_mem_nil
  rwa [Text.quotedBy_nil, List.append_nil] at heffect

theorem hasEffect_accountRewards :
    HasEffect texts "  \"account_rewards\": [".toList id := by
  have hline : "  \"account_rewards\": [".toList =
      "  ".toList ++ quotedBy quote ["account_rewards".toList, ": [".toList] := by decide
  rw [hline]
  apply hasEffect_id <;> decide

include hlawful

theorem hasEffects_accountLines (accounts : List PosRewardAccount) :
    List.Forall₂ (HasEffect texts) (accountLines texts accounts)
      (accounts.map fun account found => (found.1, found.2 ++ [account])) := by
  induction accounts with
  | nil => exact .nil
  | cons account rest ih =>
    have hcomma : IsPlain (if rest = [] then [] else ",".toList) := by
      split <;> decide
    exact .cons (hasEffect_lineOf hlawful account hcomma) ih

/-- **The lines of a record.** -/
theorem hasEffects_rewardLines (posEpoch : UInt64) (record : PosRewardEntry) :
    List.Forall₂ (HasEffect texts) (rewardLines texts posEpoch record) (effectsOf record) := by
  have hend : List.Forall₂ (HasEffect texts) ["  ]".toList, "\x7d".toList] [id, id] :=
    .cons (hasEffect_of_isPlain (by decide)) (.cons (hasEffect_of_isPlain (by decide)) .nil)
  have hstart : List.Forall₂ (HasEffect texts)
      ["\x7b".toList, posEpochLine posEpoch,
        executionHashLine texts record.executionEpochHash.asBytes,
        "  \"account_rewards\": [".toList]
      [id, id, fun found => (record.executionEpochHash, found.2), id] :=
    .cons (hasEffect_of_isPlain (by decide)) (.cons (hasEffect_posEpochLine posEpoch)
      (.cons (hasEffect_executionHashLine hlawful _) (.cons hasEffect_accountRewards .nil)))
  exact List.rel_append hstart (List.rel_append (hasEffects_accountLines hlawful _) hend)

/-- **The text of a record is read.** -/
theorem parseRewardJson_rewardLines (posEpoch : UInt64) (record : PosRewardEntry) :
    parseRewardJson texts (unlines (rewardLines texts posEpoch record)) = .ok record := by
  have heffects := hasEffects_rewardLines hlawful posEpoch record
  have hlines := Text.lines_unlines_append (isLine_of_hasEffects heffects)
    (List.not_mem_nil : '\n' ∉ [])
  have hfound := applyAll_take_effectsOf record (effectsOf record).length
  have hlength : (effectsOf record).length = record.accountRewards.length + 6 := by
    simp [effectsOf]
  rw [List.take_length, if_neg (by omega), List.take_of_length_le (by omega)] at hfound
  rw [List.append_nil] at hlines
  rw [parseRewardJson, hlines, List.isEmpty_nil, if_pos rfl, List.append_nil,
    foldlM_readLine heffects, hfound]
  rfl

/-- **The text of a record that is cut off** is read with the accounts of its whole lines, or with
that of the last line besides, or it is refused. -/
theorem parseRewardJson_of_part {posEpoch : UInt64} {record : PosRewardEntry} {text : List Char}
    (htext : text <+: unlines (rewardLines texts posEpoch record)) :
    parseRewardJson texts text = .error (.error "missing reward") ∨
      ∃ n hash, parseRewardJson texts text = .ok ⟨record.accountRewards.take n, hash⟩ ∧
        n ≤ (lines text).length - 4 ∧ (lines text).length ≤ n + 5 ∧
          (hash = record.executionEpochHash ∨ hash = zeroHash ∧ (lines text).length ≤ 3) := by
  rcases foldlM_readLine_of_part (hasEffects_rewardLines hlawful posEpoch record) htext
    (zeroHash, []) with h | ⟨n, hle, hge, h⟩
  · rw [parseRewardJson, h]
    exact Or.inl rfl
  · rw [applyAll_take_effectsOf] at h
    refine Or.inr ⟨n - 4, if n ≤ 2 then zeroHash else record.executionEpochHash, ?_, by omega,
      by omega, ?_⟩
    · rw [parseRewardJson, h]
      rfl
    · split
      case isTrue hn => exact Or.inr ⟨rfl, by omega⟩
      case isFalse => exact Or.inl rfl

end Record

/-! ## The dump of a record -/

section Dump

variable {T : PrimitiveTypes} {decoders : Decoders T} {asBytes : Bytes → Except String Bytes}

/-- An item that is read as a hash, an address or an amount has its bytes. -/
structure ReadsBytes (decoders : Decoders T) (asBytes : Bytes → Except String Bytes) : Prop where
  asH256 : ∀ item h, decoders.asH256 item = .ok h → asBytes item = .ok h.asBytes
  asAddress : ∀ item a, decoders.asAddress item = .ok a → asBytes item = .ok a.asBytes
  asU256 : ∀ item amount, decoders.asU256 item = .ok amount → ∃ bytes, asBytes item = .ok bytes ∧
    bytes.length ≤ 32 ∧ U256.fromBigEndian bytes = amount

theorem valAt_eq_ok_iff {α : Type} {as : Bytes → Except String α} {item : Bytes} {i : ℕ} {a : α} :
    decoders.valAt as item i = .ok a ↔ ∃ x, decoders.itemAt item i = .ok x ∧ as x = .ok a := by
  unfold Decoders.valAt
  simp only [Except.bind_eq_ok, passOn_eq_ok]

theorem exec_println (line out : List Char) :
    exec (println line) out = (.ok ⟨⟩, out ++ (line ++ ['\n'])) := rfl

theorem exec_lift_bind_ok {α : Type} {r : Result α} {a : α} (h : r = .ok a)
    (f : α → Fallible Failure (List Char) PUnit) (out : List Char) :
    exec ((liftM r : Fallible Failure (List Char) α) >>= f) out = exec (f a) out := by
  apply Fallible.exec_bind_ok
  rw [Fallible.exec_lift, h]

variable (hbytes : ReadsBytes decoders asBytes)
include hbytes

/-- **One round of the loop over the accounts.** -/
theorem exec_dumpAccount {rewards : Bytes} {count j : ℕ} {account : PosRewardAccount}
    (h : readPosRewardAccount decoders rewards j = .ok account) (out : List Char) :
    exec (dumpAccount texts decoders asBytes rewards count j) out = (.ok ⟨⟩, out ++
      (lineOf texts account (if j + 1 < count then ",".toList else []) ++ ['\n'])) := by
  unfold readPosRewardAccount at h
  simp only [Except.bind_eq_ok, passOn_eq_ok, context_eq_ok, valAt_eq_ok_iff, Except.pure_def,
    Except.ok.injEq] at h
  obtain ⟨a, ha, address, ⟨x, hx, haddress⟩, posIdentifier, ⟨y, hy, hidentifier⟩, reward,
    ⟨z, hz, hreward⟩, rfl⟩ := h
  obtain ⟨bytes, hz', hle, hvalue⟩ := hbytes.asU256 z reward hreward
  have haddressBytes : context "address" (decoders.valAt asBytes a 0) = .ok address.asBytes :=
    context_eq_ok.mpr (valAt_eq_ok_iff.mpr ⟨x, hx, hbytes.asAddress x address haddress⟩)
  have hidentifierBytes : context "identifier" (decoders.valAt asBytes a 1) =
      .ok posIdentifier.asBytes :=
    context_eq_ok.mpr (valAt_eq_ok_iff.mpr ⟨y, hy, hbytes.asH256 y posIdentifier hidentifier⟩)
  have hrewardBytes : context "reward" (decoders.valAt asBytes a 2) = .ok bytes :=
    context_eq_ok.mpr (valAt_eq_ok_iff.mpr ⟨z, hz, hz'⟩)
  have hamount : amountOf bytes = .ok reward := by rw [amountOf, if_pos hle, hvalue]
  unfold dumpAccount
  rw [exec_lift_bind_ok (passOn_eq_ok.mpr ha), exec_lift_bind_ok haddressBytes,
    exec_lift_bind_ok hidentifierBytes, exec_lift_bind_ok hrewardBytes, exec_lift_bind_ok hamount,
    exec_println]
  rfl

/-- The loop over the accounts from one of them on. -/
theorem exec_dumpAccounts {rewards : Bytes} {count n j : ℕ} (hcount : j + n = count)
    {accounts : List PosRewardAccount}
    (h : List.Forall₂ (fun j account => readPosRewardAccount decoders rewards j = .ok account)
      (List.range' j n) accounts) (out : List Char) :
    exec ((List.range' j n).forM (dumpAccount texts decoders asBytes rewards count)) out =
      (.ok ⟨⟩, out ++ unlines (accountLines texts accounts)) := by
  induction n generalizing j accounts out with
  | zero =>
    cases h
    rw [accountLines, Text.unlines_nil, List.append_nil]
    rfl
  | succ n ih =>
    rw [List.range'_succ] at h ⊢
    obtain ⟨account, rest, haccount, hrest, rfl⟩ := List.forall₂_cons_left_iff.mp h
    have hlength : n = rest.length := by
      rw [← hrest.length_eq, List.length_range']
    -- there is a comma exactly when there is another account
    have hcomma : (if j + 1 < count then ",".toList else []) =
        if rest = [] then [] else ",".toList := by
      by_cases hnil : rest = []
      · rw [if_pos hnil, if_neg]
        rw [hnil, List.length_nil] at hlength
        omega
      · have hpos := List.length_pos_iff.mpr hnil
        rw [if_neg hnil, if_pos]
        omega
    rw [List.forM, Fallible.exec_bind_ok (exec_dumpAccount hbytes haccount out),
      ih (by omega) hrest, hcomma, accountLines, Text.unlines_cons, List.append_assoc,
      List.append_assoc]
    rfl

/-- **The dump of a record** prints its lines. -/
theorem exec_dumpReward {pow : PowDb} {posEpoch : UInt64} {value : Bytes} {record : PosRewardEntry}
    (hlookup : pow.rewardByPosEpoch.lookup (beBytes 8 posEpoch.toNat) = some value)
    (hspells : SpellsReward decoders (beBytes 8 posEpoch.toNat, value) record) :
    exec (dumpReward texts decoders asBytes pow posEpoch) [] =
      (.ok ⟨⟩, unlines (rewardLines texts posEpoch record)) := by
  obtain ⟨hhash, haccounts⟩ := hspells
  obtain ⟨x, hx, hhash⟩ := valAt_eq_ok_iff.mp hhash
  unfold readPosRewardAccounts at haccounts
  simp only [Except.bind_eq_ok, passOn_eq_ok, context_eq_ok] at haccounts
  obtain ⟨rewards, hrewards, count, hcount, haccounts⟩ := haccounts
  have hhashBytes : context "decode exec hash" (decoders.valAt asBytes value 1) =
      .ok record.executionEpochHash.asBytes :=
    context_eq_ok.mpr (valAt_eq_ok_iff.mpr ⟨x, hx, hbytes.asH256 x _ hhash⟩)
  have hitem : context "decode account_rewards" (passOn (decoders.itemAt value 0)) = .ok rewards :=
    context_eq_ok.mpr (passOn_eq_ok.mpr hrewards)
  have hforall := mapM_eq_ok_iff.mp haccounts
  rw [List.range_eq_range'] at hforall
  have hloop := @exec_dumpAccounts texts T decoders asBytes hbytes rewards count count 0
    (Nat.zero_add count) _ hforall
  unfold dumpReward
  rw [exec_lift_bind_ok (okOr_eq_ok.mpr hlookup), exec_lift_bind_ok hhashBytes,
    exec_lift_bind_ok hitem, exec_lift_bind_ok (passOn_eq_ok.mpr hcount),
    Fallible.exec_bind_ok (exec_println _ _), Fallible.exec_bind_ok (exec_println _ _),
    Fallible.exec_bind_ok (exec_println _ _), Fallible.exec_bind_ok (exec_println _ _),
    List.range_eq_range', Fallible.exec_bind_ok (hloop _), Fallible.exec_bind_ok (exec_println _ _),
    exec_println]
  simp only [rewardLines, Text.unlines_append, Text.unlines_cons, Text.unlines_nil,
    List.append_assoc, List.cons_append, List.nil_append]

end Dump

/-- **A reward on its way through text.** What is printed for a record is read as the record, and is
injected as the record; of a text that is cut off anywhere, the accounts of the whole lines are
read, or that of the last line besides, or it is refused. -/
theorem rewardText_read {T : PrimitiveTypes} {decoders : Decoders T}
    {asBytes : Bytes → Except String Bytes} (hbytes : ReadsBytes decoders asBytes)
    (hlawful : texts.Lawful) {pow : PowDb} {posEpoch : UInt64} {value : Bytes}
    {record : PosRewardEntry}
    (hlookup : pow.rewardByPosEpoch.lookup (beBytes 8 posEpoch.toNat) = some value)
    (hspells : SpellsReward decoders (beBytes 8 posEpoch.toNat, value) record) :
    ∃ text, exec (dumpReward texts decoders asBytes pow posEpoch) [] = (.ok ⟨⟩, text) ∧
      parseRewardJson texts text = .ok record ∧
      (∀ (crates : Crates T) (toEpoch : UInt64) (data : Bytes),
        injectFrom texts crates text toEpoch data = inject crates record toEpoch data) ∧
      ∀ part, part <+: text →
        parseRewardJson texts part = .error (.error "missing reward") ∨
        ∃ n hash, parseRewardJson texts part = .ok ⟨record.accountRewards.take n, hash⟩ ∧
          n ≤ (lines part).length - 4 ∧ (lines part).length ≤ n + 5 ∧
            (hash = record.executionEpochHash ∨ hash = zeroHash ∧ (lines part).length ≤ 3) := by
  have hread := parseRewardJson_rewardLines hlawful posEpoch record
  refine ⟨unlines (rewardLines texts posEpoch record), exec_dumpReward hbytes hlookup hspells,
    hread, ?_, ?_⟩
  · intro crates toEpoch data
    rw [injectFrom, hread]
  · intro part hpart
    exact parseRewardJson_of_part hlawful hpart

/-! ## Plain text forms -/

/-- Two digits for each byte. -/
def plainHex (bytes : Bytes) : List Char :=
  bytes.flatMap fun b => [Nat.digitChar (b.toNat / 16), Nat.digitChar (b.toNat % 16)]

def hexValue (c : Char) : Option ℕ := "0123456789abcdef".toList.idxOf? c

def readPlainHex : List Char → Except String Bytes
  | [] => .ok []
  | [_] => .error "odd number of digits"
  | high :: low :: digits =>
    match hexValue high, hexValue low with
    | some x, some y => do
      let bytes ← readPlainHex digits
      pure (UInt8.ofNat (16 * x + y) :: bytes)
    | _, _ => .error "invalid digit"

/-- As many bytes as there have to be. -/
def readSizedHex (n : ℕ) (digits : List Char) : Except String Bytes := do
  let bytes ← readPlainHex digits
  if bytes.length = n then .ok bytes else .error "unexpected length"

def readPlainAmount (digits : List Char) : Except String U256 :=
  if digits ≠ [] ∧ digits.all Char.isDigit ∧ Nat.ofDigitChars 10 digits 0 < 2 ^ 256 then
    .ok (BitVec.ofNat 256 (Nat.ofDigitChars 10 digits 0))
  else .error "invalid amount"

def plainTexts : TextForms where
  hexEncode := plainHex
  displayU256 amount := Nat.toDigits 10 amount.toNat
  parseH256 digits := H256.fromSlice <$> readSizedHex 32 digits
  parseAddress digits := Address.fromSlice <$> readSizedHex 20 digits
  fromDecStr := readPlainAmount

theorem hexValue_digitChar {x : ℕ} (hx : x < 16) : hexValue (Nat.digitChar x) = some x := by
  revert x
  decide

/-- **The digits of some bytes are read.** -/
theorem readPlainHex_plainHex (bytes : Bytes) : readPlainHex (plainHex bytes) = .ok bytes := by
  induction bytes with
  | nil => rfl
  | cons b bytes ih =>
    have hb := b.toNat_lt
    have hvalue : 16 * (b.toNat / 16) + b.toNat % 16 = b.toNat := Nat.div_add_mod b.toNat 16
    have hdigits : plainHex (b :: bytes) = Nat.digitChar (b.toNat / 16) ::
        Nat.digitChar (b.toNat % 16) :: plainHex bytes := rfl
    rw [hdigits, readPlainHex, hexValue_digitChar (by omega), hexValue_digitChar (by omega)]
    simp only [ih, Except.ok_bind, Except.pure_def, hvalue, UInt8.ofNat_toNat]

theorem readSizedHex_plainHex {n : ℕ} {bytes : Bytes} (h : bytes.length = n) :
    readSizedHex n (plainHex bytes) = .ok bytes := by
  rw [readSizedHex, readPlainHex_plainHex, Except.ok_bind, if_pos h]

theorem plainTexts_lawful : plainTexts.Lawful where
  isHex bytes c hc := by
    obtain ⟨b, -, hc⟩ := List.mem_flatMap.mp hc
    have hdigit : ∀ x < 16, Nat.digitChar x ∈ "0123456789abcdef".toList := by decide
    have hb := b.toNat_lt
    simp only [List.mem_cons, List.not_mem_nil, or_false] at hc
    rcases hc with rfl | rfl
    · exact hdigit _ (by omega)
    · exact hdigit _ (by omega)
  isDecimal amount c hc := Nat.isDigit_of_mem_toDigits (by omega) (by omega) hc
  ne_nil amount := Nat.toDigits_ne_nil
  parseH256_hex h := by
    show H256.fromSlice <$> readSizedHex 32 (plainHex h.asBytes) = .ok h
    rw [readSizedHex_plainHex h.length_asBytes]
    exact congrArg Except.ok (H256.fromSlice_asBytes h)
  parseAddress_hex a := by
    show Address.fromSlice <$> readSizedHex 20 (plainHex a.asBytes) = .ok a
    rw [readSizedHex_plainHex a.length_asBytes]
    exact congrArg Except.ok (Address.fromSlice_asBytes a)
  fromDecStr_display amount := by
    have hdigits : ∀ c ∈ Nat.toDigits 10 amount.toNat, c.isDigit := fun c hc =>
      Nat.isDigit_of_mem_toDigits (by omega) (by omega) hc
    show readPlainAmount (Nat.toDigits 10 amount.toNat) = .ok amount
    rw [readPlainAmount, Nat.ofDigitChars_ten_toDigits,
      if_pos ⟨Nat.toDigits_ne_nil, List.all_eq_true.mpr hdigits, amount.isLt⟩, BitVec.ofNat_toNat,
      BitVec.setWidth_eq]

theorem asBytes_fromSlice_of_length {bytes : Bytes} (h : bytes.length = 20) :
    (Address.fromSlice bytes).asBytes = bytes := by
  refine List.ext_getElem (by simp [h]) fun i h₁ h₂ => ?_
  simp [Address.asBytes, Address.fromSlice, h₂]

theorem plainDecoders_readsBytes : ReadsBytes plainDecoders plainRlp.asBytes := by
  have hsized : ∀ {n item bytes}, plainSized n item = .ok bytes →
      plainRlp.asBytes item = .ok bytes ∧ bytes.length = n := by
    intro n item bytes h
    obtain ⟨read, hread, h⟩ := Except.bind_eq_ok.mp h
    split at h
    case isTrue hlength =>
      obtain rfl := Except.ok.inj h
      exact ⟨hread, hlength⟩
    case isFalse => cases h
  refine ⟨?_, ?_, ?_⟩
  · intro item h hitem
    obtain ⟨bytes, hbytes, rfl⟩ := Except.map_eq_ok.mp hitem
    obtain ⟨hread, hlength⟩ := hsized hbytes
    rw [hread, H256.asBytes_fromSlice hlength]
  · intro item a hitem
    obtain ⟨bytes, hbytes, rfl⟩ := Except.map_eq_ok.mp hitem
    obtain ⟨hread, hlength⟩ := hsized hbytes
    rw [hread, asBytes_fromSlice_of_length hlength]
  · intro item amount hitem
    obtain ⟨bytes, hbytes, rfl⟩ := Except.map_eq_ok.mp hitem
    obtain ⟨hread, hlength⟩ := hsized hbytes
    exact ⟨bytes, hread, hlength.le, rfl⟩

/-- A record of one account. -/
theorem rewardText_read_one :
    ∃ text, exec (dumpReward plainTexts plainDecoders plainRlp.asBytes
        (plainRewardDb [plainBlock.hash]) 0) [] = (.ok ⟨⟩, text) ∧
      parseRewardJson plainTexts text =
        .ok ⟨[⟨Address.zero, H256.fromSlice [], 0⟩], plainBlock.hash⟩ := by
  have hspells : SpellsReward plainDecoders (beBytes 8 0,
      plainReward Address.zero (H256.fromSlice []) 0 plainBlock.hash)
      ⟨[⟨Address.zero, H256.fromSlice [], 0⟩], plainBlock.hash⟩ :=
    ⟨by decide +kernel, by decide +kernel⟩
  obtain ⟨text, hdump, hread, -⟩ := @rewardText_read plainTexts plainTypes plainDecoders
    plainRlp.asBytes plainDecoders_readsBytes plainTexts_lawful (plainRewardDb [plainBlock.hash]) 0
    (plainReward Address.zero (H256.fromSlice []) 0 plainBlock.hash) _ (by decide +kernel) hspells
  exact ⟨text, hdump, hread⟩

end Extractor
