import CfxMinimalExecution.Extractor.ContainerFile
import CfxMinimalExecution.Extractor.FlagPatch

/-!
# The bounds of the directory

The end of a payload is computed in words before it is compared with the length of the data. The
bounds of both readers of the directory are exact unless an end wraps around.

## Main definitions

* `entryAt`, `payloadStop`: an entry of the directory, and the exact end of its payload
* `Accepts`: an entry passes the checks of the readers
* `SafeSpans`: an error is returned, or payloads within the data
* `NoWrap`: no end wraps around and is taken for a small one

## Main results

* `parse_safe_iff`: both readers are safe exactly when no end wraps around
-/

namespace Extractor

open Cfxpack

/-! ## The entries -/

/-- The number that a field spells. -/
def fieldAt (data : Bytes) (pos : ℕ) : ℕ := leNat ((data.drop pos).take 8)

def entryPos (i : ℕ) : ℕ := containerHeaderLen + dirEntryLen * i

/-- An entry of the directory. -/
def entryAt (data : Bytes) (i : ℕ) : UInt64 × UInt64 × ℕ × ℕ :=
  (UInt64.ofNat (fieldAt data (entryPos i)), UInt64.ofNat (fieldAt data (entryPos i + 8)),
    fieldAt data (entryPos i + 16), fieldAt data (entryPos i + 24))

/-- The exact end of the payload of an entry. -/
def payloadStop (data : Bytes) (i : ℕ) : ℕ := (entryAt data i).2.2.1 + (entryAt data i).2.2.2

/-- The number of entries that the header announces. -/
def entryCount (data : Bytes) : ℕ := leNat ((data.drop 12).take 4)

def IsHeader (data : Bytes) : Prop := containerHeaderLen ≤ data.length ∧ data.take 8 = magic

def Present (data : Bytes) (i : ℕ) : Prop := entryPos i + dirEntryLen ≤ data.length

/-- An entry passes the checks of the readers. -/
def Accepts (profile : Profile) (data : Bytes) (i : ℕ) : Prop :=
  Present data i ∧ ∃ stop, profile.usize (payloadStop data i) = .ok stop ∧ stop ≤ data.length

section Readers

variable {profile : Profile} {data : Bytes}

theorem fieldAt_lt (data : Bytes) (pos : ℕ) : fieldAt data pos < UInt64.size := by
  have hlen : ((data.drop pos).take 8).length ≤ 8 := List.length_take_le 8 _
  calc fieldAt data pos < 256 ^ ((data.drop pos).take 8).length := leNat_lt _
    _ ≤ 256 ^ 8 := Nat.pow_le_pow_right (by omega) hlen
    _ = UInt64.size := rfl

theorem u64FromLe_eq {pos : ℕ} (h : pos + 8 ≤ data.length) :
    u64FromLe data pos = .ok (UInt64.ofNat (fieldAt data pos)) := by
  have hslice : slice data pos (pos + 8) = .ok ((data.drop pos).take 8) := by
    rw [slice_eq_ok, List.drop_take, Nat.add_sub_cancel_left]
    exact ⟨⟨by omega, h⟩, rfl⟩
  rw [u64FromLe, hslice]
  rfl

/-- A reader of an entry, which keeps a part of it. -/
structure ReadsEntry {β : Type} (profile : Profile) (data : Bytes) (read : Cursor β)
    (part : UInt64 × UInt64 × ℕ × ℕ → β) : Prop where
  present : ∀ i, Present data i → read.run (entryPos i) = (do
    let stop ← profile.usize (payloadStop data i)
    ensure (stop ≤ data.length) "payload out of bounds"
    pure (part (entryAt data i), entryPos (i + 1)))
  truncated : ∀ i, ¬ Present data i → read.run (entryPos i) = .error (.error "truncated directory")

theorem entryPos_succ (i : ℕ) : entryPos i + dirEntryLen = entryPos (i + 1) := by
  rw [entryPos, entryPos, Nat.mul_succ, Nat.add_assoc]

theorem u64FromLe_field {i : ℕ} (h : Present data i) (k : ℕ) (hk : k + 8 ≤ dirEntryLen) :
    u64FromLe data (entryPos i + k) = .ok (UInt64.ofNat (fieldAt data (entryPos i + k))) := by
  refine u64FromLe_eq ?_
  unfold Present at h
  omega

theorem ensure_present {i : ℕ} (h : Present data i) :
    ensure (entryPos i + dirEntryLen ≤ data.length) "truncated directory" = .ok () :=
  ensure_of h

theorem ensure_truncated {i : ℕ} (h : ¬ Present data i) :
    ensure (entryPos i + dirEntryLen ≤ data.length) "truncated directory" =
      .error (.error "truncated directory") := if_neg h

theorem exists_toNat_field {i : ℕ} (h : Present data i) (k : ℕ) (hk : k + 8 ≤ dirEntryLen) :
    ∃ value, u64FromLe data (entryPos i + k) = .ok value ∧
      value.toNat = fieldAt data (entryPos i + k) :=
  ⟨_, u64FromLe_field h k hk, UInt64.toNat_ofNat_of_lt' (fieldAt_lt data _)⟩

theorem readsEntry_readDirEntry (profile : Profile) (data : Bytes) :
    ReadsEntry profile data (readDirEntry profile data) id where
  present i h := by
    have hstart := u64FromLe_field h 0 (by decide)
    have hcount := u64FromLe_field h 8 (by decide)
    obtain ⟨offset, hoffset, hoffsetNat⟩ := exists_toNat_field h 16 (by decide)
    obtain ⟨length, hlength, hlengthNat⟩ := exists_toNat_field h 24 (by decide)
    rw [Nat.add_zero] at hstart
    rw [← entryPos_succ]
    simp [readDirEntry, ensure_present h, hstart, hcount, hoffset, hlength, hoffsetNat,
      hlengthNat, Profile.addUsize, payloadStop, entryAt]
  truncated i h := by simp [readDirEntry, ensure_truncated h]

theorem readsEntry_readSpan (profile : Profile) (data : Bytes) :
    ReadsEntry profile data (readSpan profile data) (·.2.2) where
  present i h := by
    obtain ⟨offset, hoffset, hoffsetNat⟩ := exists_toNat_field h 16 (by decide)
    obtain ⟨length, hlength, hlengthNat⟩ := exists_toNat_field h 24 (by decide)
    rw [← entryPos_succ]
    simp [readSpan, ensure_present h, hoffset, hlength, hoffsetNat, hlengthNat,
      Profile.addUsize, payloadStop, entryAt]
  truncated i h := by simp [readSpan, ensure_truncated h]

/-! ## The loop -/

section Loop

variable {β : Type} {read : Cursor β} {part : UInt64 × UInt64 × ℕ × ℕ → β}
  (h : ReadsEntry profile data read part)

include h

/-- A round returns exactly for an entry that passes the checks. -/
theorem ReadsEntry.run_eq_ok {i s' : ℕ} {b : β} : read.run (entryPos i) = .ok (b, s') ↔
    Accepts profile data i ∧ b = part (entryAt data i) ∧ s' = entryPos (i + 1) := by
  by_cases hpresent : Present data i
  · simp only [h.present i hpresent, Except.bind_eq_ok, ensure_eq_ok, Except.pure_def,
      Except.ok.injEq, Prod.mk.injEq, Accepts, hpresent, true_and]
    constructor
    · rintro ⟨stop, hstop, _, hle, rfl, rfl⟩
      exact ⟨⟨stop, hstop, hle⟩, rfl, rfl⟩
    · rintro ⟨⟨stop, hstop, hle⟩, rfl, rfl⟩
      exact ⟨stop, hstop, (), hle, rfl, rfl⟩
  · rw [h.truncated i hpresent]
    exact ⟨nofun, fun hok => absurd hok.1.1 hpresent⟩

/-- A round that fails without an error of the reader has an end out of range. -/
theorem ReadsEntry.run_eq_error {i : ℕ} {e : Failure} (he : read.run (entryPos i) = .error e) :
    (∃ message, e = .error message) ∨
      (Present data i ∧ profile.overflowChecks ∧ UInt64.size ≤ payloadStop data i) := by
  by_cases hpresent : Present data i
  · simp only [h.present i hpresent, Except.bind_eq_error, Profile.usize_eq_error, ensure_eq_error,
      Except.pure_def, reduceCtorEq, and_false, exists_false, or_false] at he
    rcases he with ⟨hchecks, hsize, -⟩ | ⟨stop, -, -, rfl⟩
    · exact .inr ⟨hpresent, hchecks, hsize⟩
    · exact .inl ⟨_, rfl⟩
  · rw [h.truncated i hpresent] at he
    exact .inl ⟨_, (Except.error.inj he).symm⟩

/-- **The rounds of the loop** read the entries that pass the checks, one after the other. -/
theorem ReadsEntry.rounds_iff {l : List ℕ} {k s' : ℕ} {bs : List β} :
    Rounds (fun _ => read) (entryPos k) l bs s' ↔
      (∀ i, k ≤ i → i < k + l.length → Accepts profile data i) ∧
        bs = (List.range' k l.length).map (fun i => part (entryAt data i)) ∧
        s' = entryPos (k + l.length) := by
  induction l generalizing k bs with
  | nil =>
    constructor
    · rintro ⟨⟩
      exact ⟨fun i hk hi => absurd hi (Nat.not_lt.mpr hk), rfl, rfl⟩
    · rintro ⟨-, rfl, rfl⟩
      exact .nil _
  | cons a l ih =>
    have hlen : k + (a :: l).length = k + 1 + l.length := by
      rw [List.length_cons]
      omega
    rw [hlen]
    constructor
    · rintro ⟨⟩
      rename_i b s bs hround hrest
      obtain ⟨haccepts, rfl, rfl⟩ := h.run_eq_ok.mp hround
      obtain ⟨hall, rfl, rfl⟩ := ih.mp hrest
      refine ⟨fun i hk hi => ?_, rfl, rfl⟩
      rcases Nat.eq_or_lt_of_le hk with rfl | hlt
      · exact haccepts
      · exact hall i hlt hi
    · rintro ⟨hall, rfl, rfl⟩
      refine .cons (h.run_eq_ok.mpr ⟨hall k le_rfl (by omega), rfl, rfl⟩) ?_
      exact ih.mpr ⟨fun i hk hi => hall i (by omega) hi, rfl, rfl⟩

end Loop

/-! ## Safety -/

/-- An error is returned, or payloads within the data, which can be sliced. -/
def SafeSpans (data : Bytes) (spans : Result (List (ℕ × ℕ))) : Prop :=
  (∃ message, spans = .error (.error message)) ∨
    ∃ entries, spans = .ok entries ∧ ∀ span ∈ entries, span.1 + span.2 ≤ data.length ∧
      ∃ payload, slice data span.1 (span.1 + span.2) = .ok payload

/-- An end that wraps around does no harm when an entry is refused: with overflow checks an earlier
one, without them any. -/
def NoWrap (profile : Profile) (data : Bytes) : Prop :=
  IsHeader data → ∀ i < entryCount data, Present data i → UInt64.size ≤ payloadStop data i →
    ∃ j < entryCount data, (profile.overflowChecks → j < i) ∧ ¬ Accepts profile data j

/-- A reader of the directory, which keeps a part of every entry. -/
def parseWith {β : Type} (data : Bytes) (read : Cursor β) : Result (List β) := do
  ensure (containerHeaderLen ≤ data.length ∧ data.take 8 = magic) "not a cfxpack container"
  let groupCount ← u32FromLe data 12
  ((List.range groupCount.toNat).mapM fun _ => read).run' containerHeaderLen

theorem u32FromLe_entryCount (h : IsHeader data) :
    ∃ groupCount, u32FromLe data 12 = .ok groupCount ∧ groupCount.toNat = entryCount data := by
  have hlen : 24 ≤ data.length := h.1
  have hslice : slice data 12 (12 + 4) = .ok ((data.drop 12).take 4) := by
    rw [slice_eq_ok, List.drop_take]
    exact ⟨⟨by omega, by omega⟩, rfl⟩
  have hlt : entryCount data < UInt32.size := by
    have hfour : ((data.drop 12).take 4).length = 4 := by
      rw [List.length_take, List.length_drop]
      omega
    calc entryCount data < 256 ^ ((data.drop 12).take 4).length := leNat_lt _
      _ = UInt32.size := by rw [hfour]; rfl
  refine ⟨UInt32.ofNat (entryCount data), ?_, UInt32.toNat_ofNat_of_lt' hlt⟩
  rw [u32FromLe, hslice]
  rfl

theorem parseWith_of_header {β : Type} (h : IsHeader data) (read : Cursor β) :
    parseWith data read =
      Prod.fst <$> ((List.range (entryCount data)).mapM fun _ => read).run (entryPos 0) := by
  obtain ⟨groupCount, hcount, hnat⟩ := u32FromLe_entryCount h
  have hheader : ensure (containerHeaderLen ≤ data.length ∧ data.take 8 = magic)
      "not a cfxpack container" = .ok () := ensure_of h
  rw [parseWith, hheader, Except.ok_bind, hcount, Except.ok_bind, hnat, StateT.run'_eq]
  rfl

theorem parseWith_of_not_header {β : Type} (h : ¬ IsHeader data) (read : Cursor β) :
    parseWith data read = .error (.error "not a cfxpack container") := by
  have hheader : ensure (containerHeaderLen ≤ data.length ∧ data.take 8 = magic)
      "not a cfxpack container" = .error (.error "not a cfxpack container") := if_neg h
  rw [parseWith, hheader, Except.error_bind]

section Parse

variable {β : Type} {read : Cursor β} {part : UInt64 × UInt64 × ℕ × ℕ → β}
  (h : ReadsEntry profile data read part)

include h

/-- What the reader returns when every entry passes the checks. -/
theorem ReadsEntry.parse_eq_ok (hheader : IsHeader data) {entries : List β} :
    parseWith data read = .ok entries ↔ (∀ i < entryCount data, Accepts profile data i) ∧
      entries = (List.range (entryCount data)).map fun i => part (entryAt data i) := by
  rw [parseWith_of_header hheader, Except.map_eq_ok]
  simp only [Prod.exists, mapM_run_eq_ok, h.rounds_iff, List.length_range, Nat.zero_add,
    ← List.range_eq_range']
  constructor
  · rintro ⟨_, _, ⟨hall, rfl, -⟩, rfl⟩
    exact ⟨fun i hi => hall i (Nat.zero_le i) hi, rfl⟩
  · rintro ⟨hall, rfl⟩
    exact ⟨_, _, ⟨fun i _ hi => hall i hi, rfl, rfl⟩, rfl⟩

/-- The reader fails at the first entry that does not pass the checks. -/
theorem ReadsEntry.parse_eq_error (hheader : IsHeader data) {e : Failure} :
    parseWith data read = .error e ↔ ∃ i < entryCount data,
      (∀ j < i, Accepts profile data j) ∧ read.run (entryPos i) = .error e := by
  rw [parseWith_of_header hheader]
  have hmap : ∀ r : Result (List β × ℕ), Prod.fst <$> r = .error e ↔ r = .error e := by
    intro r
    cases r <;> simp
  rw [hmap, mapM_run_eq_error]
  simp only [h.rounds_iff, Nat.zero_add]
  constructor
  · rintro ⟨done, a, rest, bs, s', hsplit, ⟨hall, -, rfl⟩, hround⟩
    have hlen := congrArg List.length hsplit
    rw [List.length_range, List.length_append, List.length_cons] at hlen
    exact ⟨done.length, by omega, fun j hj => hall j (Nat.zero_le j) hj, hround⟩
  · rintro ⟨i, hi, hall, hround⟩
    have htake : (List.range (entryCount data)).take i = List.range i := by
      rw [List.take_range, Nat.min_eq_left hi.le]
    have hdrop : (List.range (entryCount data)).drop i =
        i :: (List.range (entryCount data)).drop (i + 1) := by
      rw [List.drop_eq_getElem_cons (by simpa using hi), List.getElem_range]
    refine ⟨List.range i, i, (List.range (entryCount data)).drop (i + 1), _, _, ?_,
      ⟨fun j _ hj => hall j (by simpa using hj), rfl, rfl⟩, by simpa using hround⟩
    rw [← hdrop, ← htake, List.take_append_drop]

/-- **A reader of the directory is safe** exactly when no end wraps around and is taken for a small
one. -/
theorem ReadsEntry.safeSpans_iff (hsize : data.length < UInt64.size) {span : β → ℕ × ℕ}
    (hspan : ∀ entry, span (part entry) = entry.2.2) :
    SafeSpans data (List.map span <$> parseWith data read) ↔ NoWrap profile data := by
  constructor
  -- a payload that wraps with every entry before it accepted is not safe
  · intro hsafe hheader i hi hpresent hwrap
    by_contra hnone
    push Not at hnone
    by_cases hchecks : profile.overflowChecks = true
    · -- the entries before it are accepted, so the loop ends with an overflow
      have hround : read.run (entryPos i) = .error .overflow := by
        rw [h.present i hpresent, Profile.usize_eq_error.mpr ⟨hchecks, hwrap, rfl⟩]
        rfl
      have herror := (h.parse_eq_error hheader).mpr
        ⟨i, hi, fun j hj => hnone j (hj.trans hi) fun _ => hj, hround⟩
      rw [herror] at hsafe
      rcases hsafe with ⟨message, hmessage⟩ | ⟨entries, hentries, -⟩
      · cases hmessage
      · cases hentries
    · -- every entry is accepted, so the loop returns this one
      have hall : ∀ j < entryCount data, Accepts profile data j :=
        fun j hj => hnone j hj fun htrue => absurd htrue hchecks
      rw [(h.parse_eq_ok hheader).mpr ⟨hall, rfl⟩] at hsafe
      rcases hsafe with ⟨message, hmessage⟩ | ⟨entries, hentries, hbounds⟩
      · cases hmessage
      · obtain rfl := Except.ok.inj hentries
        have hmem : (entryAt data i).2.2 ∈ List.map span
            ((List.range (entryCount data)).map fun i => part (entryAt data i)) := by
          rw [List.map_map]
          exact List.mem_map.mpr ⟨i, List.mem_range.mpr hi, hspan _⟩
        have hle := (hbounds _ hmem).1
        unfold payloadStop at hwrap
        omega
  -- without such a payload, an accepted entry stops where its sum says
  · intro hnowrap
    by_cases hheader : IsHeader data
    · cases hparse : parseWith data read with
      | ok entries =>
        obtain ⟨hall, rfl⟩ := (h.parse_eq_ok hheader).mp hparse
        refine .inr ⟨_, rfl, fun s hs => ?_⟩
        rw [List.map_map] at hs
        obtain ⟨i, hi, rfl⟩ := List.mem_map.mp hs
        obtain ⟨hpresent, stop, hstop, hle⟩ := hall i (List.mem_range.mp hi)
        -- otherwise an earlier entry is refused, and this one is not accepted either
        have hlt : payloadStop data i < UInt64.size := by
          by_contra hwrap
          obtain ⟨j, hj, -, hrefused⟩ :=
            hnowrap hheader i (List.mem_range.mp hi) hpresent (Nat.not_lt.mp hwrap)
          exact hrefused (hall j hj)
        rw [Profile.usize_of_lt hlt] at hstop
        obtain rfl := Except.ok.inj hstop
        rw [Function.comp_apply, hspan]
        exact ⟨hle, _, slice_eq_ok.mpr ⟨⟨Nat.le_add_right _ _, hle⟩, rfl⟩⟩
      -- and a refusal with an overflow needs such a payload
      | error e =>
        obtain ⟨i, hi, hall, hround⟩ := (h.parse_eq_error hheader).mp hparse
        rcases h.run_eq_error hround with ⟨message, rfl⟩ | ⟨hpresent, hchecks, hwrap⟩
        · exact .inl ⟨message, rfl⟩
        · obtain ⟨j, hj, hbefore, hrefused⟩ := hnowrap hheader i hi hpresent hwrap
          exact absurd (hall j (hbefore hchecks)) hrefused
    · rw [parseWith_of_not_header hheader]
      exact .inl ⟨_, rfl⟩

end Parse

/-- **Directory parsing is safe** exactly when no end wraps around, in both readers. -/
theorem parse_safe_iff (profile : Profile) {data : Bytes} (hsize : data.length < UInt64.size) :
    (SafeSpans data (List.map (·.2.2) <$> parseDirectory profile data) ↔ NoWrap profile data) ∧
      (SafeSpans data (parseContainer profile data) ↔ NoWrap profile data) := by
  have hspans : List.map id <$> parseContainer profile data = parseContainer profile data := by
    rw [List.map_id_fun, id_map]
  refine ⟨(readsEntry_readDirEntry profile data).safeSpans_iff hsize fun _ => rfl, ?_⟩
  rw [← hspans]
  exact (readsEntry_readSpan profile data).safeSpans_iff hsize fun _ => rfl

end Readers

/-! ## A directory of one entry -/

/-- A directory of one entry. -/
def plainDirectory (offset length : ℕ) : Bytes :=
  magic ++ leBytes 4 1 ++ leBytes 4 1 ++ leBytes 8 0 ++ dirEntryBytes (0, 1, offset, length)

/-- An empty payload at the end of the data. -/
theorem parse_safe_iff_one : SafeSpans (plainDirectory 56 0)
    (List.map (·.2.2) <$> parseDirectory ⟨true⟩ (plainDirectory 56 0)) := by
  refine (parse_safe_iff ⟨true⟩ (by decide)).1.mpr fun _ i hi _ hwrap => ?_
  have hcount : entryCount (plainDirectory 56 0) = 1 := by decide +kernel
  obtain rfl : i = 0 := by omega
  exact absurd hwrap (by decide +kernel)

/-- An end that wraps around is taken for a small one, or overflows. -/
theorem not_safeSpans_wrap (checks : Bool) :
    ¬ SafeSpans (plainDirectory (UInt64.size - 1) 2)
        (List.map (·.2.2) <$> parseDirectory ⟨checks⟩ (plainDirectory (UInt64.size - 1) 2)) ∧
      ¬ SafeSpans (plainDirectory (UInt64.size - 1) 2)
        (parseContainer ⟨checks⟩ (plainDirectory (UInt64.size - 1) 2)) := by
  have hrun : ∀ checks, List.map (·.2.2) <$>
      parseDirectory ⟨checks⟩ (plainDirectory (UInt64.size - 1) 2) =
        (if checks then .error .overflow else .ok [(UInt64.size - 1, 2)]) ∧
      parseContainer ⟨checks⟩ (plainDirectory (UInt64.size - 1) 2) =
        (if checks then .error .overflow else .ok [(UInt64.size - 1, 2)]) := by
    decide +kernel
  have hnot : ¬ SafeSpans (plainDirectory (UInt64.size - 1) 2)
      (if checks then .error .overflow else .ok [(UInt64.size - 1, 2)]) := by
    rintro (⟨message, hmessage⟩ | ⟨entries, hentries, hbounds⟩)
    · cases checks <;> cases hmessage
    · cases checks with
      | true => cases hentries
      | false =>
        obtain rfl := Except.ok.inj hentries
        exact absurd (hbounds _ List.mem_cons_self).1 (by decide +kernel)
  rw [(hrun checks).1, (hrun checks).2]
  exact ⟨hnot, hnot⟩

/-- Neither reader is safe, in either build. -/
theorem parse_not_safe :
    (¬ SafeSpans (plainDirectory (UInt64.size - 1) 2)
        (List.map (·.2.2) <$> parseDirectory ⟨false⟩ (plainDirectory (UInt64.size - 1) 2)) ∧
      ¬ SafeSpans (plainDirectory (UInt64.size - 1) 2)
        (parseContainer ⟨false⟩ (plainDirectory (UInt64.size - 1) 2))) ∧
    ¬ SafeSpans (plainDirectory (UInt64.size - 1) 2)
        (List.map (·.2.2) <$> parseDirectory ⟨true⟩ (plainDirectory (UInt64.size - 1) 2)) ∧
      ¬ SafeSpans (plainDirectory (UInt64.size - 1) 2)
        (parseContainer ⟨true⟩ (plainDirectory (UInt64.size - 1) 2)) :=
  ⟨not_safeSpans_wrap false, not_safeSpans_wrap true⟩

end Extractor
