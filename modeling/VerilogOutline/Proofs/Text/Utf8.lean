import VerilogOutline.Text.Utf8

/-!
# Characters and their bytes

A text is read from its bytes as it was written. A character of ASCII is read only where its
byte stands, so what is undecodable neither hides such characters nor brings any about.
-/

namespace VerilogOutline.Utf8

/-- The bytes that spell the characters. -/
def encode (chars : List Char) : List UInt8 :=
  chars.flatMap String.utf8EncodeChar

@[simp] theorem encode_nil : encode [] = [] :=
  rfl

@[simp] theorem encode_cons (c : Char) (chars : List Char) :
    encode (c :: chars) = String.utf8EncodeChar c ++ encode chars :=
  rfl

theorem encodeChar_of_ascii {c : Char} (h : c.toNat < 0x80) :
    String.utf8EncodeChar c = [UInt8.ofNat c.toNat] :=
  if_pos (Nat.le_of_lt_succ h)

/-- The number of characters that agree in all bytes but so many last ones. -/
def span : Nat → Nat
  | 0 => 1
  | missing + 1 => 64 * span missing

theorem span_pos (missing : Nat) : 0 < span missing := by
  induction missing with
  | zero => decide
  | succ missing ih => exact Nat.mul_pos (by decide) ih

theorem toNat_ofNat {n : Nat} (h : n.isValidChar) : (Char.ofNat n).toNat = n := by
  rw [Char.ofNat, dif_pos h]
  rfl

namespace Pending

variable {pending later : Pending} {b : UInt8}

/-- The bits read so far together with those of a further byte. -/
def extend (pending : Pending) (b : UInt8) : Nat :=
  pending.code * 64 + (b.toNat - 0x80)

/-- The least number that the bytes read so far can begin. -/
def least (pending : Pending) : Nat :=
  pending.extend pending.low * span pending.owed

/-- The number behind the greatest one that the bytes read so far can begin. -/
def bound (pending : Pending) : Nat :=
  (pending.extend pending.high + 1) * span pending.owed

theorem extend_le_extend {c : UInt8} (h : b ≤ c) : pending.extend b ≤ pending.extend c := by
  have := UInt8.le_iff_toNat_le.mp h
  unfold extend
  omega

/-- A further byte leaves some of the numbers that were possible. -/
theorem least_le (h : pending.low ≤ b) :
    pending.least ≤ pending.extend b * span pending.owed :=
  Nat.mul_le_mul_right _ (extend_le_extend h)

theorem le_bound (h : b ≤ pending.high) :
    (pending.extend b + 1) * span pending.owed ≤ pending.bound :=
  Nat.mul_le_mul_right _ (Nat.succ_le_succ (extend_le_extend h))

theorem least_of_low (h : pending.low = 0x80) :
    pending.least = pending.code * span (pending.owed + 1) := by
  have hextend : pending.extend pending.low = pending.code * 64 := by
    have hlow : pending.low.toNat = 0x80 := by rw [h]; rfl
    unfold extend
    omega
  rw [least, hextend, span, Nat.mul_assoc]

theorem bound_of_high (h : pending.high = 0xBF) :
    pending.bound = (pending.code + 1) * span (pending.owed + 1) := by
  have hextend : pending.extend pending.high + 1 = (pending.code + 1) * 64 := by
    have hhigh : pending.high.toNat = 0xBF := by rw [h]; rfl
    unfold extend
    omega
  rw [bound, hextend, span, Nat.mul_assoc]

theorem next?_eq_some_iff {step : Step} :
    pending.next? b = some step ↔ (pending.low ≤ b ∧ b ≤ pending.high) ∧
      (pending.owed = 0 ∧ step = .done (some (Char.ofNat (pending.extend b))) ∨
        ∃ owed, pending.owed = owed + 1 ∧
          step = .more { code := pending.extend b, owed }) := by
  unfold next? extend
  rw [Option.ite_none_right_eq_some]
  refine and_congr_right fun _ => ?_
  cases pending.owed with
  | zero => simp [eq_comm]
  | succ owed => simp [eq_comm]

/-- Every number that the bytes can begin is that of a character, and of none in ASCII. -/
structure Proper (pending : Pending) : Prop where
  beyond_ascii : 0x80 ≤ pending.least
  scalar : pending.bound ≤ 0xD800 ∨ 0xE000 ≤ pending.least ∧ pending.bound ≤ 0x110000

theorem proper_mk {code owed : Nat} (hascii : 0x80 ≤ code * span (owed + 1))
    (hscalar : (code + 1) * span (owed + 1) ≤ 0xD800 ∨
      0xE000 ≤ code * span (owed + 1) ∧ (code + 1) * span (owed + 1) ≤ 0x110000) :
    Proper { code, owed } := by
  refine ⟨?_, ?_⟩
  · rwa [least_of_low rfl]
  · rwa [least_of_low rfl, bound_of_high rfl]

theorem Proper.next? (h : pending.Proper) (hnext : pending.next? b = some (.more later)) :
    later.Proper := by
  obtain ⟨⟨hlow, hhigh⟩, ⟨_, hstep⟩ | ⟨owed, howed, hstep⟩⟩ := next?_eq_some_iff.mp hnext
  · contradiction
  · obtain rfl := Step.more.inj hstep
    have hleast := least_le hlow
    have hbound := le_bound hhigh
    rw [howed] at hleast hbound
    have hscalar := h.scalar
    exact proper_mk (Nat.le_trans h.beyond_ascii hleast) (by omega)

/-- The bytes of a character outside ASCII end in no character of ASCII. -/
theorem Proper.exists_of_done {char : Option Char} (h : pending.Proper)
    (hnext : pending.next? b = some (.done char)) : ∃ c, char = some c ∧ 0x80 ≤ c.toNat := by
  obtain ⟨⟨hlow, hhigh⟩, ⟨howed, hstep⟩ | ⟨_, _, hstep⟩⟩ := next?_eq_some_iff.mp hnext
  · obtain rfl := Step.done.inj hstep
    have hleast := least_le hlow
    have hbound := le_bound hhigh
    rw [howed, span, Nat.mul_one] at hleast hbound
    have hascii := h.beyond_ascii
    have hscalar := h.scalar
    have hvalid : (pending.extend b).isValidChar := by
      unfold Nat.isValidChar
      omega
    refine ⟨_, rfl, ?_⟩
    rw [toNat_ofNat hvalid]
    exact Nat.le_trans hascii hleast
  · contradiction

end Pending

/-- How a first byte is read, in terms of its number. -/
theorem first_eq (b : UInt8) :
    first b =
      if b.toNat < 0x80 then .done (some (Char.ofNat b.toNat))
      else if 0xC2 ≤ b.toNat ∧ b.toNat ≤ 0xDF then .more { code := b.toNat - 0xC0, owed := 0 }
      else if b.toNat = 0xE0 then .more { code := 0, owed := 1, low := 0xA0 }
      else if b.toNat = 0xED then .more { code := 0xD, owed := 1, high := 0x9F }
      else if 0xE1 ≤ b.toNat ∧ b.toNat ≤ 0xEF then .more { code := b.toNat - 0xE0, owed := 1 }
      else if b.toNat = 0xF0 then .more { code := 0, owed := 2, low := 0x90 }
      else if 0xF1 ≤ b.toNat ∧ b.toNat ≤ 0xF3 then .more { code := b.toNat - 0xF0, owed := 2 }
      else if b.toNat = 0xF4 then .more { code := 4, owed := 2, high := 0x8F }
      else .done none := by
  simp only [first, UInt8.lt_iff_toNat_lt, UInt8.le_iff_toNat_le, ← UInt8.toNat_inj]
  rfl

theorem proper_of_first {b : UInt8} {pending : Pending} (h : first b = .more pending) :
    pending.Proper := by
  rw [first_eq] at h
  split at h
  next => contradiction
  split at h
  next htwo =>
    obtain rfl := Step.more.inj h
    exact Pending.proper_mk (by simp only [span]; omega) (by simp only [span]; omega)
  split at h
  next =>
    obtain rfl := Step.more.inj h
    exact ⟨by decide, by decide⟩
  split at h
  next =>
    obtain rfl := Step.more.inj h
    exact ⟨by decide, by decide⟩
  split at h
  next hthree =>
    -- of the first bytes of three, the one that begins surrogates was dealt with before
    obtain rfl := Step.more.inj h
    exact Pending.proper_mk (by simp only [span]; omega) (by simp only [span]; omega)
  split at h
  next =>
    obtain rfl := Step.more.inj h
    exact ⟨by decide, by decide⟩
  split at h
  next hfour =>
    obtain rfl := Step.more.inj h
    exact Pending.proper_mk (by simp only [span]; omega) (by simp only [span]; omega)
  split at h
  next =>
    obtain rfl := Step.more.inj h
    exact ⟨by decide, by decide⟩
  next => contradiction

/-- Only an ASCII byte is a character of its own. -/
theorem eq_of_first {b : UInt8} {c : Char} (h : first b = .done (some c)) :
    b = UInt8.ofNat c.toNat := by
  rw [first_eq] at h
  split at h
  next hb =>
    obtain rfl := Option.some.inj (Step.done.inj h)
    rw [toNat_ofNat (.inl (by omega)), UInt8.ofNat_toNat]
  next =>
    -- a byte outside ASCII begins a character or is undecodable
    repeat' split at h
    all_goals simp at h

namespace Pending

/-- The bytes read so far are the first ones of a number. -/
structure Begins (pending : Pending) (n : Nat) : Prop where
  code_eq : pending.code = n / span (pending.owed + 1)
  least_le : pending.least ≤ n
  lt_bound : n < pending.bound
  high_ge : 0x80 ≤ pending.high

theorem begins_mk {code n : Nat} (owed : Nat) (h : code = n / span (owed + 1)) :
    Begins { code, owed } n where
  code_eq := h
  least_le := by
    rw [least_of_low rfl, h]
    exact Nat.div_mul_le_self _ _
  lt_bound := by
    rw [bound_of_high rfl, h]
    exact Nat.lt_mul_of_div_lt (Nat.lt_succ_self _) (span_pos _)
  high_ge := (by decide : (0x80 : UInt8) ≤ 0xBF)

/-- The next byte of a number is admitted, and its bits are added. -/
theorem Begins.next {pending : Pending} {n : Nat} {b : UInt8} (h : pending.Begins n)
    (hb : b.toNat = n / span pending.owed % 64 + 0x80) :
    (pending.low ≤ b ∧ b ≤ pending.high) ∧ pending.extend b = n / span pending.owed := by
  have hspan := span_pos pending.owed
  have hcode := h.code_eq
  have hleast := (Nat.le_div_iff_mul_le hspan).mpr h.least_le
  have hbound := (Nat.div_lt_iff_lt_mul hspan).mpr h.lt_bound
  have hlow : 0x80 ≤ pending.low.toNat := UInt8.le_iff_toNat_le.mp pending.low_ge
  have hhigh : 0x80 ≤ pending.high.toNat := UInt8.le_iff_toNat_le.mp h.high_ge
  rw [span, Nat.mul_comm, ← Nat.div_div_eq_div_mul] at hcode
  rw [UInt8.le_iff_toNat_le, UInt8.le_iff_toNat_le]
  unfold extend at hleast hbound ⊢
  omega

end Pending

/-- The byte of a number behind which so many others stand, unless it is the first. -/
def further (n missing : Nat) : UInt8 :=
  UInt8.ofNat (n / span missing % 64 + 0x80)

theorem toNat_further (n missing : Nat) :
    (further n missing).toNat = n / span missing % 64 + 0x80 := by
  rw [further, UInt8.toNat_ofNat']
  omega

/-- The last bytes of a number, with so many behind the first of them. -/
def trail (n : Nat) : Nat → List UInt8
  | 0 => [further n 0]
  | owed + 1 => further n (owed + 1) :: trail n owed

theorem Pending.Begins.decodeFrom_trail {pending : Pending} {n : Nat} (h : pending.Begins n)
    (rest : List UInt8) :
    decodeFrom (some pending) (trail n pending.owed ++ rest) =
      some (Char.ofNat n) :: decodeFrom none rest := by
  generalize howed : pending.owed = owed
  induction owed generalizing pending with
  | zero =>
      have hbyte := toNat_further n 0
      rw [← howed] at hbyte
      obtain ⟨hrange, hextend⟩ := h.next hbyte
      have hnext := Pending.next?_eq_some_iff.mpr ⟨hrange, .inl ⟨howed, rfl⟩⟩
      rw [hextend, howed, span, Nat.div_one] at hnext
      simp only [trail, List.cons_append, List.nil_append, decodeFrom, hnext]
  | succ owed ih =>
      have hbyte := toNat_further n (owed + 1)
      rw [← howed] at hbyte
      obtain ⟨hrange, hextend⟩ := h.next hbyte
      have hnext := Pending.next?_eq_some_iff.mpr ⟨hrange, .inr ⟨owed, howed, rfl⟩⟩
      rw [howed] at hnext hextend
      simp only [trail, List.cons_append, decodeFrom, hnext]
      exact ih (Pending.begins_mk owed hextend) rfl

section First

variable {n : Nat} {lead : UInt8}

theorem exists_first_of_two (hleast : 0x80 ≤ n) (hbound : n < 0x800)
    (hlead : lead.toNat = n / 64 + 0xC0) :
    ∃ pending, pending.owed = 0 ∧ first lead = .more pending ∧ pending.Begins n := by
  refine ⟨_, rfl, ?_, Pending.begins_mk 0 rfl⟩
  rw [first_eq, hlead, if_neg (by omega), if_pos (by omega), Nat.add_sub_cancel]
  rfl

theorem exists_first_of_three (hvalid : n.isValidChar) (hleast : 0x800 ≤ n)
    (hbound : n < 0x10000) (hlead : lead.toNat = n / 4096 + 0xE0) :
    ∃ pending, pending.owed = 1 ∧ first lead = .more pending ∧ pending.Begins n := by
  unfold Nat.isValidChar at hvalid
  rw [first_eq, hlead, if_neg (by omega), if_neg (by omega)]
  by_cases hzero : n / 4096 = 0
  · rw [if_pos (by omega)]
    refine ⟨_, rfl, rfl, ?_, hleast, ?_, by decide⟩
    · exact hzero.symm
    · show n < 0x1000
      omega
  rw [if_neg (by omega)]
  by_cases hsurrogate : n / 4096 = 0xD
  · rw [if_pos (by omega)]
    refine ⟨_, rfl, rfl, ?_, ?_, ?_, by decide⟩
    · exact hsurrogate.symm
    · show 0xD000 ≤ n
      omega
    · show n < 0xD800
      omega
  · rw [if_neg (by omega), if_pos (by omega), Nat.add_sub_cancel]
    exact ⟨_, rfl, rfl, Pending.begins_mk 1 rfl⟩

theorem exists_first_of_four (hvalid : n.isValidChar) (hleast : 0x10000 ≤ n)
    (hlead : lead.toNat = n / 262144 + 0xF0) :
    ∃ pending, pending.owed = 2 ∧ first lead = .more pending ∧ pending.Begins n := by
  unfold Nat.isValidChar at hvalid
  rw [first_eq, hlead, if_neg (by omega), if_neg (by omega), if_neg (by omega), if_neg (by omega),
    if_neg (by omega)]
  by_cases hzero : n / 262144 = 0
  · rw [if_pos (by omega)]
    refine ⟨_, rfl, rfl, ?_, hleast, ?_, by decide⟩
    · exact hzero.symm
    · show n < 0x40000
      omega
  rw [if_neg (by omega)]
  by_cases hlast : n / 262144 = 4
  · rw [if_neg (by omega), if_pos (by omega)]
    refine ⟨_, rfl, rfl, ?_, ?_, ?_, by decide⟩
    · exact hlast.symm
    · show 0x100000 ≤ n
      omega
    · show n < 0x110000
      omega
  · rw [if_pos (by omega), Nat.add_sub_cancel]
    exact ⟨_, rfl, rfl, Pending.begins_mk 2 rfl⟩

end First

/-- The bytes of a character outside ASCII are one that begins its number and the last ones. -/
theorem exists_first {c : Char} (h : 0x80 ≤ c.toNat) :
    ∃ lead pending, String.utf8EncodeChar c = lead :: trail c.toNat pending.owed ∧
      first lead = .more pending ∧ pending.Begins c.toNat := by
  have hvalid : c.toNat.isValidChar := c.valid
  have hcode : c.val.toNat = c.toNat := rfl
  unfold String.utf8EncodeChar
  simp only [hcode]
  rw [if_neg (by omega)]
  split
  next htwo =>
    have hlead : (UInt8.ofNat (c.toNat / 64 % 0x20 + 0xC0)).toNat = c.toNat / 64 + 0xC0 := by
      rw [UInt8.toNat_ofNat']
      omega
    obtain ⟨pending, howed, hfirst, hbegins⟩ := exists_first_of_two h (by omega) hlead
    refine ⟨_, pending, ?_, hfirst, hbegins⟩
    simp [howed, trail, further, span]
  split
  next hthree =>
    have hlead : (UInt8.ofNat (c.toNat / 4096 % 0x10 + 0xE0)).toNat = c.toNat / 4096 + 0xE0 := by
      rw [UInt8.toNat_ofNat']
      omega
    obtain ⟨pending, howed, hfirst, hbegins⟩ :=
      exists_first_of_three hvalid (by omega) (by omega) hlead
    refine ⟨_, pending, ?_, hfirst, hbegins⟩
    simp [howed, trail, further, span]
  next hfour =>
    have hlead : (UInt8.ofNat (c.toNat / 262144 % 0x08 + 0xF0)).toNat =
        c.toNat / 262144 + 0xF0 := by
      unfold Nat.isValidChar at hvalid
      rw [UInt8.toNat_ofNat']
      omega
    obtain ⟨pending, howed, hfirst, hbegins⟩ := exists_first_of_four hvalid (by omega) hlead
    refine ⟨_, pending, ?_, hfirst, hbegins⟩
    simp [howed, trail, further, span]

/-- A character is read from its bytes. -/
theorem decodeFrom_encodeChar (c : Char) (rest : List UInt8) :
    decodeFrom none (String.utf8EncodeChar c ++ rest) = some c :: decodeFrom none rest := by
  by_cases h : c.toNat < 0x80
  · have hbyte : (UInt8.ofNat c.toNat).toNat = c.toNat := by
      rw [UInt8.toNat_ofNat']
      omega
    rw [encodeChar_of_ascii h, List.singleton_append, decodeFrom, first_eq, hbyte, if_pos h,
      Char.ofNat_toNat]
  · obtain ⟨lead, pending, hbytes, hfirst, hbegins⟩ := exists_first (Nat.not_lt.mp h)
    rw [hbytes, List.cons_append, decodeFrom, hfirst]
    dsimp only
    rw [hbegins.decodeFrom_trail, Char.ofNat_toNat]

/-- What one byte contributes where a character begins. -/
theorem decodeFrom_none_cons (b : UInt8) (bytes : List UInt8) :
    (∃ char, first b = .done char ∧
        decodeFrom none (b :: bytes) = char :: decodeFrom none bytes) ∨
      ∃ pending : Pending, pending.Proper ∧
        decodeFrom none (b :: bytes) = decodeFrom (some pending) bytes := by
  rw [decodeFrom]
  cases hfirst : first b with
  | done char => exact .inl ⟨char, rfl, rfl⟩
  | more pending => exact .inr ⟨pending, proper_of_first hfirst, rfl⟩

/-- What one byte contributes within a character: it is refused and read anew, or it ends a
character outside ASCII, or more bytes are needed. -/
theorem Pending.Proper.decodeFrom_cons {pending : Pending} (h : pending.Proper) (b : UInt8)
    (bytes : List UInt8) :
    decodeFrom (some pending) (b :: bytes) = none :: decodeFrom none (b :: bytes) ∨
      (∃ c : Char, 0x80 ≤ c.toNat ∧
        decodeFrom (some pending) (b :: bytes) = some c :: decodeFrom none bytes) ∨
      ∃ later : Pending, later.Proper ∧
        decodeFrom (some pending) (b :: bytes) = decodeFrom (some later) bytes := by
  cases hnext : pending.next? b with
  | none =>
      left
      simp only [decodeFrom, hnext]
      cases first b <;> rfl
  | some step =>
      cases step with
      | done char =>
          obtain ⟨c, rfl, hc⟩ := h.exists_of_done hnext
          exact .inr (.inl ⟨c, hc, by simp only [decodeFrom, hnext]⟩)
      | more later =>
          exact .inr (.inr ⟨later, h.next? hnext, by simp only [decodeFrom, hnext]⟩)

section Ascii

variable {bytes : List UInt8} {c : Char} {chars : List (Option Char)}

/-- Bytes that continue a character do not start with one of ASCII. -/
theorem Pending.Proper.not_ascii {pending : Pending} (h : pending.Proper)
    (hchars : decodeFrom (some pending) bytes = some c :: chars) : 0x80 ≤ c.toNat := by
  induction bytes generalizing pending with
  | nil => simp [decodeFrom] at hchars
  | cons b bytes ih =>
      rcases h.decodeFrom_cons b bytes with heq | ⟨d, hd, heq⟩ | ⟨later, hlater, heq⟩
      · rw [heq] at hchars
        simp at hchars
      · rw [heq] at hchars
        obtain ⟨hhead, _⟩ := List.cons.inj hchars
        rwa [← Option.some.inj hhead]
      · exact ih hlater (heq ▸ hchars)

/-- An ASCII character is read from its own byte only. -/
theorem exists_of_decodeFrom_eq_cons (hc : c.toNat < 0x80)
    (h : decodeFrom none bytes = some c :: chars) :
    ∃ rest, bytes = UInt8.ofNat c.toNat :: rest ∧ chars = decodeFrom none rest := by
  cases bytes with
  | nil => contradiction
  | cons b bytes =>
      rcases decodeFrom_none_cons b bytes with ⟨char, hfirst, heq⟩ | ⟨pending, hproper, heq⟩
      · rw [heq] at h
        obtain ⟨rfl, rfl⟩ := List.cons.inj h
        exact ⟨bytes, by rw [eq_of_first hfirst], rfl⟩
      · exact absurd hc (Nat.not_lt.mpr (hproper.not_ascii (heq ▸ h)))

/-- Wherever an ASCII character is read, a character begins. -/
theorem exists_suffix_of_decodeFrom {state : Option Pending}
    (hstate : ∀ pending ∈ state, pending.Proper) (hc : c.toNat < 0x80)
    (h : some c :: chars <:+ decodeFrom state bytes) :
    ∃ rest, rest <:+ bytes ∧ decodeFrom none rest = some c :: chars := by
  induction bytes generalizing state with
  | nil => cases state <;> simp [decodeFrom, List.suffix_cons_iff] at h
  | cons b bytes ih =>
      have hlater : ∀ {state : Option Pending}, (∀ pending ∈ state, pending.Proper) →
          some c :: chars <:+ decodeFrom state bytes →
          ∃ rest, rest <:+ b :: bytes ∧ decodeFrom none rest = some c :: chars := by
        intro state hstate hread
        obtain ⟨rest, hrest, hdecode⟩ := ih hstate hread
        exact ⟨rest, hrest.trans (List.suffix_cons b bytes), hdecode⟩
      have hanew : some c :: chars <:+ decodeFrom none (b :: bytes) →
          ∃ rest, rest <:+ b :: bytes ∧ decodeFrom none rest = some c :: chars := by
        intro hread
        rcases decodeFrom_none_cons b bytes with ⟨char, _, heq⟩ | ⟨pending, hproper, heq⟩
        · rw [heq, List.suffix_cons_iff] at hread
          rcases hread with hwhole | hread
          · exact ⟨b :: bytes, List.suffix_rfl, heq.trans hwhole.symm⟩
          · exact hlater (by simp) hread
        · exact hlater (by simpa using hproper) (heq ▸ hread)
      cases state with
      | none => exact hanew h
      | some pending =>
          rcases (hstate pending rfl).decodeFrom_cons b bytes with
            heq | ⟨d, hd, heq⟩ | ⟨later, hproper, heq⟩
          · rw [heq, List.suffix_cons_iff] at h
            exact hanew (h.resolve_left (by simp))
          · rw [heq, List.suffix_cons_iff] at h
            refine hlater (by simp) (h.resolve_left fun hwhole => ?_)
            obtain ⟨hhead, _⟩ := List.cons.inj hwhole
            obtain rfl := Option.some.inj hhead
            exact Nat.not_lt.mpr hd hc
          · exact hlater (by simpa using hproper) (heq ▸ h)

end Ascii

section Text

variable {bytes : List UInt8} {word : List Char}

theorem toList_text (bytes : List UInt8) :
    (text bytes).toList = (decode bytes).map (·.getD replacement) :=
  String.toList_ofList

/-- A text is read as it was written, whatever bytes stand behind it. -/
theorem toList_text_encode_append (chars : List Char) (rest : List UInt8) :
    (text (encode chars ++ rest)).toList = chars ++ (text rest).toList := by
  induction chars with
  | nil => rfl
  | cons c chars ih =>
      rw [toList_text, decode] at ih ⊢
      rw [encode_cons, List.append_assoc, decodeFrom_encodeChar, List.map_cons, ih]
      rfl

theorem toList_text_append_cons {b : UInt8} (h : b < 0x80) (before after : List UInt8) :
    (text (before ++ b :: after)).toList = (text before).toList ++ (text (b :: after)).toList := by
  have hanew := decodeFrom_append_ascii none [] after h
  rw [decodeFrom, List.nil_append] at hanew
  simp only [toList_text, decode, decodeFrom_append_ascii none before after h, hanew,
    List.map_append, List.nil_append]

/-- A text that starts with ASCII is read as it was written, whatever bytes stand around it. -/
theorem toList_text_append_encode {c : Char} (hc : c.toNat < 0x80) (before : List UInt8)
    (chars : List Char) (after : List UInt8) :
    (text (before ++ (encode (c :: chars) ++ after))).toList =
      (text before).toList ++ (c :: chars ++ (text after).toList) := by
  have hascii : UInt8.ofNat c.toNat < 0x80 := by
    rw [UInt8.lt_iff_toNat_lt, UInt8.toNat_ofNat']
    show c.toNat % 256 < 128
    omega
  rw [← toList_text_encode_append, encode_cons, encodeChar_of_ascii hc]
  exact toList_text_append_cons hascii before (encode chars ++ after)

theorem eq_map_some_of_ascii {chars : List (Option Char)} (hword : ∀ c ∈ word, c.toNat < 0x80)
    (h : chars.map (·.getD replacement) = word) : chars = word.map some := by
  subst h
  rw [List.map_map]
  refine (List.map_id chars).symm.trans (List.map_congr_left fun char hchar => ?_)
  cases char with
  | some c => rfl
  | none =>
      have hreplacement := hword replacement (List.mem_map.mpr ⟨none, hchar, rfl⟩)
      contradiction

theorem exists_of_decodeFrom_eq_append {chars : List (Option Char)}
    (hword : ∀ c ∈ word, c.toNat < 0x80)
    (h : decodeFrom none bytes = word.map some ++ chars) : encode word <+: bytes := by
  induction word generalizing bytes with
  | nil => exact List.nil_prefix
  | cons c word ih =>
      rw [List.forall_mem_cons] at hword
      obtain ⟨rest, rfl, hrest⟩ := exists_of_decodeFrom_eq_cons hword.1 h
      rw [encode_cons, encodeChar_of_ascii hword.1]
      exact (List.prefix_cons_inj _).mpr (ih hword.2 hrest.symm)

/-- A text of ASCII stands in what was read only where it stands in the bytes. -/
theorem encode_isInfix_of_text (hascii : word.all (·.toNat < 0x80) = true)
    (h : word <:+: (text bytes).toList) : encode word <:+: bytes := by
  have hword : ∀ c ∈ word, c.toNat < 0x80 := by simpa using hascii
  obtain ⟨front, back, hsplit⟩ := h
  rw [toList_text, List.append_assoc] at hsplit
  obtain ⟨front, behind, hdecode, _, hbehind⟩ := List.map_eq_append_iff.mp hsplit.symm
  obtain ⟨inside, back, rfl, hinside, _⟩ := List.map_eq_append_iff.mp hbehind
  obtain rfl := eq_map_some_of_ascii hword hinside
  cases word with
  | nil => exact List.nil_infix
  | cons c word =>
      have hsuffix : some c :: (word.map some ++ back) <:+ decodeFrom none bytes :=
        ⟨front, hdecode.symm⟩
      obtain ⟨rest, hrest, hread⟩ :=
        exists_suffix_of_decodeFrom (by simp) (hword c List.mem_cons_self) hsuffix
      exact (exists_of_decodeFrom_eq_append hword hread).isInfix.trans hrest.isInfix

theorem mem_of_mem_text {c : Char} (hc : c.toNat < 0x80) (h : c ∈ (text bytes).toList) :
    UInt8.ofNat c.toNat ∈ bytes := by
  obtain ⟨front, back, hsplit⟩ := List.append_of_mem h
  have hinside : [c] <:+: (text bytes).toList := ⟨front, back, by simp [hsplit]⟩
  have hbyte := encode_isInfix_of_text (by simpa using hc) hinside
  rw [encode_cons, encodeChar_of_ascii hc] at hbyte
  exact hbyte.subset List.mem_cons_self

end Text

end VerilogOutline.Utf8
