import Pdsh.Pcp.Client

/-!
# Records from the client to the server

What `pcp_sendfile` writes with `printf` formats `_sink` reads digit by digit, up to a newline. The
two agree on modes and sizes. They do not agree on a time before 1970, whose sign `getnum` does not
know, nor on a name with a newline in it, at which the record ends; and a record that `snprintf` had
to cut does not get past the asserts of `pcp_sendstr` (`records_read_back_iff`).
-/

namespace Pdsh.Pcp

open Lib.Decimal Lib.Process

variable {s t rest : CStr} {n : Nat} {r : Record}

/-! ## Reading a record off the connection -/

/-- What `_sink` takes for one record, none for a newline or the end of the input. -/
def recvRecord : SinkM (Option CStr) := do
  match ← Prog.recvByte with
  | none => return none
  | some c =>
    if c = '\n' then return none
    let more ← restOfRecord (BUFSIZ - 2)
    return more.map (c :: ·)

/-- Whatever follows, `_sink` takes just this text, and for this record. -/
def ReadsBack (text : CStr) (r : Record) : Prop :=
  ∀ rest, ∃ bytes, recvRecord.feed (text ++ rest) = some (some bytes, rest) ∧
    parseRecord (bufText bytes) = .ok r

theorem feed_restOfRecord {room : Nat} (hs : '\n' ∉ s) (hroom : s.length < room) :
    (restOfRecord room).feed (s ++ '\n' :: rest) = some (some (s ++ ['\n']), rest) := by
  induction s generalizing room with
  | nil =>
      cases room with
      | zero => simp at hroom
      | succ room =>
          rw [restOfRecord, Prog.feed_bind, List.nil_append, Prog.feed_recvByte_cons]
          rfl
  | cons c s ih =>
      cases room with
      | zero => simp at hroom
      | succ room =>
          simp only [List.mem_cons, not_or] at hs
          rw [restOfRecord, Prog.feed_bind, List.cons_append, Prog.feed_recvByte_cons,
            Option.bind_some]
          simp only [Ne.symm hs.1, if_false]
          rw [Prog.feed_bind, ih hs.2 (by simpa using hroom)]
          rfl

/-- Only the last byte of what is taken can be a newline. -/
theorem restOfRecord_newline {room : Nat} {more : CStr}
    (h : (restOfRecord room).feed s = some (some more, rest)) :
    ∃ t, '\n' ∉ t ∧ (more = t ∨ more = t ++ ['\n']) := by
  induction room generalizing s more with
  | zero =>
      cases h
      exact ⟨[], by simp, .inl rfl⟩
  | succ room ih =>
      cases s with
      | nil =>
          rw [restOfRecord, Prog.feed_bind, Prog.feed_recvByte_nil] at h
          cases h
      | cons c s =>
          rw [restOfRecord, Prog.feed_bind, Prog.feed_recvByte_cons, Option.bind_some] at h
          by_cases hc : c = '\n'
          · simp only [hc, if_true] at h
            cases h
            exact ⟨[], by simp, .inr rfl⟩
          · simp only [hc, if_false] at h
            rw [Prog.feed_bind] at h
            obtain ⟨⟨o, left⟩, hmore, hret⟩ := Option.bind_eq_some_iff.mp h
            cases o with
            | none => cases hret
            | some more' =>
                cases hret
                obtain ⟨t, ht, heq⟩ := ih hmore
                refine ⟨c :: t, by simp [ht, Ne.symm hc], ?_⟩
                rcases heq with rfl | rfl
                · exact .inl rfl
                · exact .inr rfl

theorem recvRecord_cons {c : Char} (hc : c ≠ '\n') (s : CStr) :
    recvRecord.feed (c :: s) = ((restOfRecord (BUFSIZ - 2)).feed s).map fun r =>
      (r.1.map (c :: ·), r.2) := by
  rw [recvRecord, Prog.feed_bind, Prog.feed_recvByte_cons, Option.bind_some]
  simp only [hc, if_false]
  rw [Prog.feed_bind]
  cases (restOfRecord (BUFSIZ - 2)).feed s <;> rfl

/-- A line that fits the buffer is one record. -/
theorem recvRecord_line {c : Char} (hc : c ≠ '\n') (hs : '\n' ∉ s) (hlen : s.length < BUFSIZ - 2) :
    recvRecord.feed (c :: s ++ ['\n'] ++ rest) = some (some (c :: s ++ ['\n']), rest) := by
  have hsplit : c :: s ++ ['\n'] ++ rest = c :: (s ++ '\n' :: rest) := by simp
  rw [hsplit, recvRecord_cons hc, feed_restOfRecord hs hlen]
  rfl

/-- A record has no newline in its text. -/
theorem recvRecord_newline {bytes : CStr} (h : recvRecord.feed s = some (some bytes, rest)) :
    '\n' ∉ bufText bytes := by
  cases s with
  | nil => cases h
  | cons c s =>
      by_cases hc : c = '\n'
      · rw [recvRecord, Prog.feed_bind, Prog.feed_recvByte_cons, Option.bind_some] at h
        simp only [hc, if_true] at h
        cases h
      · rw [recvRecord_cons hc] at h
        obtain ⟨⟨o, left⟩, hmore, hret⟩ := Option.map_eq_some_iff.mp h
        cases o with
        | none => cases hret
        | some more =>
            cases hret
            obtain ⟨t, ht, heq⟩ := restOfRecord_newline hmore
            have hline : '\n' ∉ c :: t := by simp [ht, Ne.symm hc]
            rcases heq with rfl | rfl
            · show '\n' ∉ bufText (c :: more)
              rw [bufText, if_neg fun hlast => hline (List.mem_of_getLast? hlast)]
              exact fun hmem => hline ((List.takeWhile_prefix _).subset hmem)
            · show '\n' ∉ bufText (c :: t ++ ['\n'])
              rw [bufText, if_pos List.getLast?_concat, List.dropLast_concat]
              exact fun hmem => hline ((List.takeWhile_prefix _).subset hmem)

theorem bufText_line (hnul : '\x00' ∉ s) : bufText (s ++ ['\n']) = s := by
  rw [bufText, if_pos List.getLast?_concat, List.dropLast_concat]
  refine List.takeWhile_eq_self_iff.mpr fun c hc => ?_
  rw [decide_eq_true_eq]
  rintro rfl
  exact hnul hc

/-! ## Numbers -/

theorem ok_bind {ε α β : Type} (a : α) (f : α → Except ε β) : (Except.ok a >>= f) = f a := rfl

theorem intText_natCast (n : Nat) : intText 1 n = pad 1 n := by
  rw [intText, if_neg (by omega)]
  rfl

theorem intText_neg {n : Int} (h : n < 0) : intText 1 n = '-' :: pad 1 n.natAbs := by
  rw [intText, if_pos h]
  rfl

theorem bmod_of_lt (h : n < 2 ^ 63) : Int.bmod n (2 ^ 64) = n := by
  refine Int.bmod_eq_of_le ?_ ?_
  · norm_num
  · norm_num
    omega

/-- A number is read up to what is no digit. -/
theorem getnum_pad (h : n < 2 ^ 63) (hrest : ∀ c ∈ rest.head?, c.isDigit = false) :
    getnum (pad 1 n ++ rest) = ((n : Int), rest) := by
  have hd : ∀ c ∈ pad 1 n, c.isDigit = true := fun c hc => isDigit_pad hc
  have htake : rest.takeWhile Char.isDigit = [] := by
    cases rest with
    | nil => rfl
    | cons c rest => exact List.takeWhile_cons_of_neg (by simp [hrest c rfl])
  have hdrop : rest.dropWhile Char.isDigit = rest := by
    cases rest with
    | nil => rfl
    | cons c rest => exact List.dropWhile_cons_of_neg (by simp [hrest c rfl])
  have hvalue : value ((pad 1 n ++ rest).takeWhile Char.isDigit) = n := by
    rw [List.takeWhile_append_of_pos hd, htake, List.append_nil, value_pad]
  have hleft : (pad 1 n ++ rest).dropWhile Char.isDigit = rest := by
    rw [List.dropWhile_append_of_pos hd, hdrop]
  have hwrap := bmod_of_lt h
  unfold getnum
  simp only [hvalue, hleft, hwrap]

theorem getnumBlank_pad (why : String) (h : n < 2 ^ 63) :
    getnumBlank why (pad 1 n ++ ' ' :: rest) = .ok ((n : Int), rest) := by
  rw [getnumBlank, getnum_pad h (by simp [Char.isDigit])]
  rfl

/-- A sign is no number. -/
theorem getnumBlank_minus (why : String) : getnumBlank why ('-' :: s) = .error why := rfl

theorem octal_toDigits {c : Char} (hc : c ∈ Nat.toDigits 8 n) : '0' ≤ c ∧ c ≤ '7' := by
  have hdigit : ∀ d < 8, '0' ≤ Nat.digitChar d ∧ Nat.digitChar d ≤ '7' := by decide
  induction n using Nat.strong_induction_on with
  | _ n ih =>
    by_cases hn : n < 8
    · rw [Nat.toDigits_of_lt_base hn, List.mem_singleton] at hc
      rw [hc]
      exact hdigit n hn
    · rw [Nat.toDigits_of_base_le (by decide) (by omega), List.mem_append, List.mem_singleton] at hc
      rcases hc with hc | rfl
      · exact ih (n / 8) (by omega) hc
      · exact hdigit _ (Nat.mod_lt _ (by decide))

theorem octal_octText {width : Nat} {c : Char} (hc : c ∈ octText width n) : '0' ≤ c ∧ c ≤ '7' := by
  rcases List.mem_append.mp hc with hzero | hd
  · rw [List.eq_of_mem_replicate hzero]
    decide
  · exact octal_toDigits hd

theorem length_octText (h : n < 4096) : (octText 4 n).length = 4 := by
  have hlen : (Nat.toDigits 8 n).length ≤ 4 :=
    (Nat.length_toDigits_le_iff (by decide) (by decide)).mpr h
  rw [octText, List.length_append, List.length_replicate]
  omega

theorem parseMode_digits {mode : Nat} (hs : ∀ c ∈ s, '0' ≤ c ∧ c ≤ '7') :
    parseMode s.length mode (s ++ rest) = .ok (Nat.ofDigitChars 8 s mode, rest) := by
  induction s generalizing mode with
  | nil => rfl
  | cons c s ih =>
      obtain ⟨hlo, hhi⟩ := hs c (by simp)
      rw [List.length_cons, List.cons_append, parseMode, if_neg,
        ih fun d hd => hs d (List.mem_cons_of_mem c hd),
        Nat.ofDigitChars_cons, Nat.mul_comm]
      rintro (hc | hc)
      · exact absurd hc (Char.not_lt.mpr hlo)
      · exact absurd hc (Char.not_lt.mpr hhi)

/-- Four octal digits are the mode. -/
theorem parseMode_octText (h : n < 4096) : parseMode 4 0 (octText 4 n ++ rest) = .ok (n, rest) := by
  have hdigits := @parseMode_digits (octText 4 n) rest 0 fun c hc => octal_octText hc
  rw [length_octText h] at hdigits
  rw [hdigits, octText, Nat.ofDigitChars_append, Nat.ofDigitChars_replicate_zero, Nat.mul_zero,
    Nat.ofDigitChars_toDigits (by decide) (by decide)]

theorem StatBuf.permissions_lt (sb : StatBuf) : sb.permissions < 4096 := by
  rw [StatBuf.permissions, UInt32.toNat_and]
  exact Nat.lt_succ_of_le Nat.and_le_right

/-! ## What is read of a line -/

theorem readsBack_line_iff {c : Char} (hc : c ≠ '\n') (hs : '\n' ∉ s) (hnul : NUL ∉ c :: s)
    (hlen : s.length < BUFSIZ - 2) :
    ReadsBack (c :: s ++ ['\n']) r ↔ parseRecord (c :: s) = .ok r := by
  constructor
  · intro h
    obtain ⟨bytes, hbytes, hparse⟩ := h []
    rw [recvRecord_line hc hs hlen] at hbytes
    cases hbytes
    rwa [bufText_line hnul] at hparse
  · intro h rest
    refine ⟨c :: s ++ ['\n'], recvRecord_line hc hs hlen, ?_⟩
    rwa [bufText_line hnul]

/-- A name is the end of its record. -/
theorem getnumBlank_suffix {why : String} {m : Int} (h : getnumBlank why s = .ok (m, t)) :
    t <:+ s := by
  unfold getnumBlank at h
  split at h
  · rename_i m' t' heq
    cases h
    have hleft : s.dropWhile Char.isDigit = ' ' :: t := congrArg Prod.snd heq
    exact (List.suffix_cons ' ' t).trans (hleft ▸ List.dropWhile_suffix _)
  · cases h

theorem parseMode_suffix {room mode mode' : Nat} (h : parseMode room mode s = .ok (mode', t)) :
    t <:+ s := by
  induction room generalizing mode s with
  | zero =>
      cases h
      exact List.suffix_refl _
  | succ room ih =>
      cases s with
      | nil => cases h
      | cons c s =>
          rw [parseMode] at h
          split at h
          · cases h
          · exact (ih h).trans (List.suffix_cons c s)

theorem parseEntry_suffix {isdir isdir' : Bool} {mode : Nat} {size : Int} {name : CStr}
    (h : parseEntry isdir s = .ok (.entry isdir' mode size name)) : name <:+ s := by
  unfold parseEntry at h
  cases hm : parseMode 4 0 s with
  | error why =>
      rw [hm] at h
      cases h
  | ok mt =>
      obtain ⟨mode', t⟩ := mt
      rw [hm] at h
      cases t with
      | nil => cases h
      | cons b t =>
          by_cases hb : b = ' '
          · subst hb
            change (getnumBlank _ t >>= fun nt => _) = _ at h
            cases hn : getnumBlank "size not delimited" t with
            | error why =>
                rw [hn] at h
                cases h
            | ok nt =>
                rw [hn] at h
                cases h
                exact (getnumBlank_suffix hn).trans
                  ((List.suffix_cons ' ' t).trans (parseMode_suffix hm))
          · simp [bind, Except.bind, hb] at h

theorem parseTimes_times (h : parseTimes s = .ok r) : ∃ tv, r = .times tv := by
  unfold parseTimes at h
  cases hm : getnumBlank "mtime.sec not delimited" s with
  | error why =>
      rw [hm] at h
      cases h
  | ok m =>
      cases hmu : getnumBlank "mtime.usec not delimited" m.2 with
      | error why =>
          simp only [hm, ok_bind, hmu] at h
          cases h
      | ok mu =>
          cases ha : getnumBlank "atime.sec not delimited" mu.2 with
          | error why =>
              simp only [hm, ok_bind, hmu, ha] at h
              cases h
          | ok a =>
              simp only [hm, ok_bind, hmu, ha] at h
              split at h
              · cases h
                exact ⟨_, rfl⟩
              · cases h

theorem parseRecord_suffix {isdir : Bool} {mode : Nat} {size : Int} {name : CStr}
    (h : parseRecord s = .ok (.entry isdir mode size name)) : name <:+ s := by
  unfold parseRecord at h
  split at h
  · obtain ⟨tv, htv⟩ := parseTimes_times h
    cases htv
  · exact (parseEntry_suffix h).trans (List.suffix_cons _ _)
  · exact (parseEntry_suffix h).trans (List.suffix_cons _ _)
  · cases h

/-! ## Times -/

theorem digits_mem {c : Char} (hc : c ∈ pad 1 n) : c ≠ '\n' ∧ c ≠ NUL := by
  have hd := isDigit_pad hc
  constructor
  · rintro rfl
    cases hd
  · rintro rfl
    cases hd

/-- A time is a number, or a sign and a number. -/
theorem intText_mem {m : Int} {c : Char} (hc : c ∈ intText 1 m) : c ≠ '\n' ∧ c ≠ NUL := by
  by_cases hm : m < 0
  · rw [intText_neg hm, List.mem_cons] at hc
    rcases hc with rfl | hc
    · exact ⟨by decide, by decide⟩
    · exact digits_mem hc
  · rw [intText, if_neg hm] at hc
    exact digits_mem hc

theorem length_intText (m : Int64) : (intText 1 m.toInt).length ≤ 20 := by
  have hnum : numDigits m.toInt.natAbs ≤ 19 := by
    rw [numDigits_le_iff (by decide)]
    have hle := m.le_toInt
    have hlt := m.toInt_lt
    omega
  rw [intText, List.length_append, length_pad]
  split
  · show 1 + max 1 (numDigits m.toInt.natAbs) ≤ 20
    omega
  · show 0 + max 1 (numDigits m.toInt.natAbs) ≤ 20
    omega

/-- The text of a `T` record behind its letter. -/
def timesText (mtime atime : Int) : CStr :=
  intText 1 mtime ++ ' ' :: intText 1 0 ++ ' ' :: intText 1 atime ++ ' ' :: intText 1 0

theorem timesText_mem {mtime atime : Int} {c : Char} (hc : c ∈ timesText mtime atime) :
    c ≠ '\n' ∧ c ≠ NUL := by
  simp only [timesText, List.append_assoc, List.cons_append, List.mem_append, List.mem_cons] at hc
  rcases hc with hc | rfl | hc | rfl | hc | rfl | hc
  · exact intText_mem hc
  · exact ⟨by decide, by decide⟩
  · exact intText_mem hc
  · exact ⟨by decide, by decide⟩
  · exact intText_mem hc
  · exact ⟨by decide, by decide⟩
  · exact intText_mem hc

theorem length_timesText (mtime atime : Int64) :
    (timesText mtime.toInt atime.toInt).length ≤ 45 := by
  have hm := length_intText mtime
  have ha := length_intText atime
  have hzero : (intText 1 0).length = 1 := rfl
  simp only [timesText, List.length_append, List.length_cons]
  omega

/-- A `T` record always fits. -/
theorem timesRecord_eq (sb : StatBuf) :
    timesRecord sb = 'T' :: timesText sb.st_mtime.toInt sb.st_atime.toInt ++ ['\n'] := by
  have hlen := length_timesText sb.st_mtime sb.st_atime
  rw [timesRecord, snprintf, List.take_of_length_le]
  · rfl
  · show ('T' :: timesText sb.st_mtime.toInt sb.st_atime.toInt ++ ['\n']).length ≤ 8191
    simp only [List.length_append, List.length_cons, List.length_nil]
    omega

theorem parseTimes_timesText {mtime atime : Nat} (hm : mtime < 2 ^ 63) (ha : atime < 2 ^ 63) :
    parseTimes (timesText mtime atime) = .ok (.times ⟨⟨atime, 0⟩, ⟨mtime, 0⟩⟩) := by
  have hzero : intText 1 0 = pad 1 0 := rfl
  have hend : getnum (pad 1 0) = (((0 : Nat) : Int), []) := by
    simpa using @getnum_pad [] 0 (by norm_num) (by simp)
  have hsplit : timesText mtime atime =
      pad 1 mtime ++ ' ' :: (pad 1 0 ++ ' ' :: (pad 1 atime ++ ' ' :: pad 1 0)) := by
    simp [timesText, intText_natCast, hzero]
  have hpos : 0 < 2 ^ 63 := by norm_num
  simp only [parseTimes, hsplit, getnumBlank_pad _ hm, getnumBlank_pad _ hpos, getnumBlank_pad _ ha,
    ok_bind, hend]
  rfl

theorem parseTimes_sign {mtime atime : Int} {tv : Times}
    (h : parseTimes (timesText mtime atime) = .ok (.times tv))
    (hm : mtime < 2 ^ 63) : 0 ≤ mtime ∧ 0 ≤ atime := by
  have hzero : intText 1 0 = pad 1 0 := rfl
  rcases lt_or_ge mtime 0 with hneg | hpos
  · rw [timesText, intText_neg hneg] at h
    cases h
  refine ⟨hpos, ?_⟩
  obtain ⟨m, rfl⟩ := Int.eq_ofNat_of_zero_le hpos
  rcases lt_or_ge atime 0 with hneg | hpos'
  · have hsplit : timesText m atime =
        pad 1 m ++ ' ' :: (pad 1 0 ++ ' ' :: ('-' :: (pad 1 atime.natAbs ++ ' ' :: pad 1 0))) := by
      simp [timesText, intText_natCast, intText_neg hneg, hzero]
    have hm' : m < 2 ^ 63 := by omega
    have hzero' : 0 < 2 ^ 63 := by norm_num
    simp only [parseTimes, hsplit, getnumBlank_pad _ hm', getnumBlank_pad _ hzero', ok_bind,
      getnumBlank_minus] at h
    cases h
  · exact hpos'

/-- The times of a `T` record come back when they are not before 1970. -/
theorem times_readsBack_iff (sb : StatBuf) :
    ReadsBack (timesRecord sb) (.times ⟨⟨sb.st_atime.toInt, 0⟩, ⟨sb.st_mtime.toInt, 0⟩⟩) ↔
      0 ≤ sb.st_mtime.toInt ∧ 0 ≤ sb.st_atime.toInt := by
  have hm := sb.st_mtime.toInt_lt
  have ha := sb.st_atime.toInt_lt
  have hlen := length_timesText sb.st_mtime sb.st_atime
  have hnul : NUL ∉ 'T' :: timesText sb.st_mtime.toInt sb.st_atime.toInt := by
    rw [List.mem_cons, not_or]
    exact ⟨by decide, fun hc => (timesText_mem hc).2 rfl⟩
  rw [timesRecord_eq, readsBack_line_iff (by decide) (fun hc => (timesText_mem hc).1 rfl) hnul
    (by rw [BUFSIZ]; omega)]
  constructor
  · intro h
    exact parseTimes_sign h hm
  · rintro ⟨hmpos, hapos⟩
    obtain ⟨m, hm'⟩ := Int.eq_ofNat_of_zero_le hmpos
    obtain ⟨a, ha'⟩ := Int.eq_ofNat_of_zero_le hapos
    rw [hm', ha']
    exact parseTimes_timesText (by omega) (by omega)

theorem times_sendable (sb : StatBuf) : Sendable (timesRecord sb) := by
  rw [timesRecord_eq]
  exact List.getLast?_concat

/-! ## Entries -/

/-- The text of a `C` or `D` record behind its letter. -/
def entryText (mode size : Nat) (name : CStr) :
    CStr := octText 4 mode ++ ' ' :: pad 1 size ++ ' ' :: name

variable {mode size : Nat} {name : CStr} {c : Char}

theorem entryText_mem (hc : c ∈ entryText mode size name) : (c ≠ '\n' ∧ c ≠ NUL) ∨ c ∈ name := by
  simp only [entryText, List.append_assoc, List.cons_append, List.mem_append, List.mem_cons] at hc
  rcases hc with hc | rfl | hc | rfl | hc
  · left
    constructor
    · rintro rfl
      exact absurd (octal_octText hc).1 (by decide)
    · rintro rfl
      exact absurd (octal_octText hc).1 (by decide)
  · exact .inl ⟨by decide, by decide⟩
  · exact .inl (digits_mem hc)
  · exact .inl ⟨by decide, by decide⟩
  · exact .inr hc

theorem length_entryText (hmode : mode < 4096) :
    (entryText mode size name).length = 6 + numDigits size + name.length := by
  have hpos := numDigits_pos size
  simp only [entryText, List.length_append, List.length_cons, length_octText hmode, length_pad]
  omega

theorem parseEntry_entryText (isdir : Bool) (hmode : mode < 4096) (hsize : size < 2 ^ 63) :
    parseEntry isdir (entryText mode size name) = .ok (.entry isdir mode size name) := by
  have hsplit : entryText mode size name = octText 4 mode ++
      ' ' :: (pad 1 size ++ ' ' :: name) := by
    simp [entryText]
  rw [parseEntry, hsplit, parseMode_octText hmode, ok_bind]
  simp only [getnumBlank_pad _ hsize, ok_bind]
  rfl

/-- A record that was cut has lost its newline. -/
theorem sendable_snprintf_iff (hs : '\n' ∉ s) :
    Sendable (snprintf BUFSIZ (s ++ ['\n'])) ↔ (s ++ ['\n']).length < BUFSIZ := by
  rw [Sendable, snprintf]
  constructor
  · intro h
    by_contra hlen
    rw [List.length_append, List.length_singleton] at hlen
    rw [List.take_append_of_le_length (by omega)] at h
    exact hs (List.mem_of_mem_take (List.mem_of_getLast? h))
  · intro hlen
    rw [List.take_of_length_le (by omega)]
    exact List.getLast?_concat

/-- A `C` or `D` record comes back when its name has no newline and the record was not cut. -/
theorem entry_readsBack_iff {isdir : Bool} (hletter : ∀ cp,
    parseRecord (c :: cp) = parseEntry isdir cp)
    (hmode : mode < 4096) (hsize : size < 2 ^ 63) (hnul : NUL ∉ name) :
    (Sendable (snprintf BUFSIZ (c :: entryText mode size name ++ ['\n'])) ∧
        ReadsBack (snprintf BUFSIZ (c :: entryText mode size name ++ ['\n']))
          (.entry isdir mode size name)) ↔
      '\n' ∉ name ∧ 8 + numDigits size + name.length < BUFSIZ := by
  have hlen := @length_entryText mode size name hmode
  have hc : c ≠ '\n' ∧ c ≠ NUL := by
    constructor
    · rintro rfl
      have := hletter (entryText mode size name)
      rw [parseEntry_entryText isdir hmode hsize] at this
      cases this
    · rintro rfl
      have := hletter (entryText mode size name)
      rw [parseEntry_entryText isdir hmode hsize] at this
      cases this
  have hline : '\n' ∉ name → '\n' ∉ c :: entryText mode size name := by
    intro hname hmem
    rcases List.mem_cons.mp hmem with heq | hmem
    · exact hc.1 heq.symm
    rcases entryText_mem hmem with h | h
    · exact h.1 rfl
    · exact hname h
  have hnul' : NUL ∉ c :: entryText mode size name := by
    intro hmem
    rcases List.mem_cons.mp hmem with heq | hmem
    · exact hc.2 heq.symm
    rcases entryText_mem hmem with h | h
    · exact h.2 rfl
    · exact hnul h
  constructor
  · rintro ⟨hsend, hback⟩
    have hname : '\n' ∉ name := by
      obtain ⟨bytes, hbytes, hparse⟩ := hback []
      intro hmem
      exact recvRecord_newline hbytes ((parseRecord_suffix hparse).subset hmem)
    refine ⟨hname, ?_⟩
    have hfits := (sendable_snprintf_iff (hline hname)).mp hsend
    rw [List.length_append, List.length_cons, hlen, List.length_singleton] at hfits
    omega
  · rintro ⟨hname, hfits⟩
    have hcut : snprintf BUFSIZ (c :: entryText mode size name ++ ['\n']) =
        c :: entryText mode size name ++ ['\n'] := by
      rw [snprintf, List.take_of_length_le]
      rw [List.length_append, List.length_cons, hlen, List.length_singleton]
      omega
    rw [hcut, readsBack_line_iff hc.1 (fun hmem => hline hname (List.mem_cons_of_mem c hmem)) hnul'
      (by omega),
      hletter, parseEntry_entryText isdir hmode hsize]
    exact ⟨List.getLast?_concat, rfl⟩

/-! ## The records of a file -/

/-- The records `pcp_sendfile` sends for a file, and what each of them says. -/
def sentRecords (pcp : Client) (sb : StatBuf) (output_file : CStr) : List (CStr × Record) :=
  (if pcp.preserve then [(timesRecord sb, .times ⟨⟨sb.st_atime.toInt, 0⟩, ⟨sb.st_mtime.toInt, 0⟩⟩)]
    else []) ++
    [if sb.isDir then (dirRecord sb output_file, .entry true sb.permissions 0
      (xbasename output_file))
      else (fileRecord sb output_file, .entry false sb.permissions sb.st_size.toInt
      (xbasename output_file))]

theorem nul_xbasename {path : CStr} (h : NUL ∉ path) : NUL ∉ xbasename path :=
  fun hmem => h ((List.rtakeWhile_suffix _ _).subset hmem)

theorem dirRecord_readsBack_iff (sb : StatBuf) {output_file : CStr} (hnul : NUL ∉ output_file) :
    (Sendable (dirRecord sb output_file) ∧
        ReadsBack (dirRecord sb output_file) (.entry true sb.permissions 0
          (xbasename output_file))) ↔
      '\n' ∉ xbasename output_file ∧ 8 + numDigits 0 + (xbasename output_file).length < BUFSIZ := by
  have htext : dirRecord sb output_file =
      snprintf BUFSIZ ('D' :: entryText sb.permissions 0 (xbasename output_file) ++ ['\n']) := rfl
  rw [htext]
  exact entry_readsBack_iff (fun _ => rfl) sb.permissions_lt (by norm_num) (nul_xbasename hnul)

theorem fileRecord_readsBack_iff (sb : StatBuf) {output_file : CStr} (hnul : NUL ∉ output_file)
    (hsize : 0 ≤ sb.st_size.toInt) :
    (Sendable (fileRecord sb output_file) ∧
        ReadsBack (fileRecord sb output_file)
          (.entry false sb.permissions sb.st_size.toInt (xbasename output_file))) ↔
      '\n' ∉ xbasename output_file ∧
        8 + numDigits sb.st_size.toInt.toNat + (xbasename output_file).length < BUFSIZ := by
  have hlt := sb.st_size.toInt_lt
  obtain ⟨size, hsize'⟩ := Int.eq_ofNat_of_zero_le hsize
  have htext : fileRecord sb output_file =
      snprintf BUFSIZ ('C' :: entryText sb.permissions size (xbasename output_file) ++ ['\n']) := by
    rw [fileRecord, hsize', intText_natCast, entryText]
    simp
  rw [htext, hsize', Int.toNat_natCast]
  exact entry_readsBack_iff (fun _ => rfl) sb.permissions_lt (by omega) (nul_xbasename hnul)

/-- The records of a file say on the other side what they say here, when no time is before 1970, the
name has no newline, and the name is short enough for the buffer. -/
theorem records_read_back_iff (pcp : Client) (sb : StatBuf) (output_file : CStr)
    (hnul : NUL ∉ output_file)
    (hsize : 0 ≤ sb.st_size.toInt) :
    (∀ p ∈ sentRecords pcp sb output_file, Sendable p.1 ∧ ReadsBack p.1 p.2) ↔
      (pcp.preserve → 0 ≤ sb.st_mtime.toInt ∧ 0 ≤ sb.st_atime.toInt) ∧
        '\n' ∉ xbasename output_file ∧
        8 + numDigits (if sb.isDir then 0 else sb.st_size.toInt.toNat) +
          (xbasename output_file).length < BUFSIZ := by
  rw [sentRecords, List.forall_mem_append, List.forall_mem_singleton]
  refine and_congr ?_ ?_
  · cases pcp.preserve with
    | false => simp
    | true =>
        rw [if_pos rfl, List.forall_mem_singleton, times_readsBack_iff]
        simp [times_sendable]
  · cases sb.isDir with
    | true => exact dirRecord_readsBack_iff sb hnul
    | false => exact fileRecord_readsBack_iff sb hnul hsize

/-- The records of a file of today with a plain name. -/
def notesRecords : List (CStr × Record) :=
  sentRecords ⟨true, false, [], []⟩ ⟨0x81A4, 5, 1700000000, 1700000001⟩ "dir/notes.txt".toList

/-- Its times and its entry. -/
theorem records_read_back_plain :
    notesRecords.length = 2 ∧ ∀ p ∈ notesRecords, Sendable p.1 ∧ ReadsBack p.1 p.2 :=
  ⟨by decide, (records_read_back_iff _ _ _ (by decide) (by decide)).mpr
    ⟨fun _ => by decide, by decide, by decide⟩⟩

/-- A name with a newline, and a file of the year 1969. -/
theorem records_lost :
    (¬ ∀ p ∈ sentRecords ⟨false, false, [], []⟩ ⟨0x81A4, 5, 0, 0⟩ "a\nb".toList,
        Sendable p.1 ∧ ReadsBack p.1 p.2) ∧
      ¬ ∀ p ∈ sentRecords ⟨true, false, [], []⟩ ⟨0x81A4, 5, -1, 0⟩ "a".toList,
        Sendable p.1 ∧ ReadsBack p.1 p.2 := by
  constructor
  · intro h
    have hfile := h _ (List.mem_singleton_self _)
    exact ((fileRecord_readsBack_iff _ (by decide) (by decide)).mp hfile).1 (by decide)
  · intro h
    have htimes := h _ List.mem_cons_self
    exact absurd ((times_readsBack_iff _).mp htimes.2).1 (by decide)

end Pdsh.Pcp
