import Deferral.Proofs.Moves
import Deferral.Proofs.Trivia
import Mathlib.Algebra.Group.Nat.Defs

/-!
# Tokens in order

The tokens of a source come one after the other and none is empty. The text of a token is as long as its bytes, unless
those are not UTF-8 (`Token.size_text`), so the start that is computed from a text is where the token starts.
-/

namespace Deferral

open List

variable {b : UInt8}

namespace Grammar

/-! ## Ordered tokens -/

variable {p q n : Nat} {ts us : List Token} {t : Token}

@[simp] theorem ordered_nil : Ordered p [] ↔ True := Iff.rfl

@[simp] theorem ordered_cons : Ordered p (t :: ts) ↔ p ≤ t.start ∧ t.start < t.stop ∧ Ordered t.stop ts := Iff.rfl

@[simp] theorem ordered_append : ∀ {p : Nat} {l : List Token},
    Ordered p (l ++ us) ↔ Ordered p l ∧ Ordered (lastStop p l) us
  | _, [] => by simp
  | _, t :: ts => by simp [ordered_append (l := ts), and_assoc]

theorem Ordered.mono (h : q ≤ p) : ∀ {ts : List Token}, Ordered p ts → Ordered q ts
  | [], _ => trivial
  | _ :: _, ho => ⟨h.trans ho.1, ho.2⟩

theorem Ordered.le_lastStop : ∀ {p : Nat} {ts : List Token}, Ordered p ts → p ≤ lastStop p ts
  | _, [], _ => le_rfl
  | p, t :: ts, ⟨hp, ht, hts⟩ => by
    have := hts.le_lastStop
    rw [lastStop_cons]
    omega

theorem Ordered.lt_lastStop {p : Nat} : ∀ {ts : List Token}, ts ≠ [] → Ordered p ts → p < lastStop p ts
  | _ :: _, _, ⟨hp, ht, hts⟩ => hp.trans_lt (ht.trans_le hts.le_lastStop)

/-! ## Tokens side by side -/

section Occurs

variable {tokens : List Token}

theorem occurs_self (tokens : List Token) : Occurs tokens 0 tokens := ⟨[], [], by simp, rfl⟩

theorem Occurs.append (h : Occurs tokens p (ts ++ us)) : Occurs tokens p ts ∧ Occurs tokens (lastStop p ts) us := by
  obtain ⟨before, after, rfl, rfl⟩ := h
  exact ⟨⟨before, us ++ after, by simp, rfl⟩, before ++ ts, after, by simp, by simp⟩

theorem Occurs.tail (h : Occurs tokens p (t :: ts)) : Occurs tokens t.stop ts := by
  have h : Occurs tokens p ([t] ++ ts) := h
  exact h.append.2

theorem Occurs.subset (h : Occurs tokens p ts) : ts ⊆ tokens := by
  obtain ⟨before, after, rfl, -⟩ := h
  intro u hu
  simp [hu]

theorem Occurs.ordered (h : Occurs tokens p ts) (ho : Ordered 0 tokens) : Ordered p ts := by
  obtain ⟨before, after, rfl, rfl⟩ := h
  exact (ordered_append.1 (ordered_append.1 ho).2).1

end Occurs

end Grammar

/-! ## The size of a text -/

namespace Utf8

/-- Characters of at most `n` bytes have a number below this. -/
def capacity : Nat → Nat
  | 0 => 0
  | 1 => 0x80
  | 2 => 0x800
  | 3 => 0x10000
  | _ => 0x110000

/-- The numbers from `low` up to `high` belong to characters of `n` bytes. -/
structure Takes (n low high : Nat) : Prop where
  least : capacity (n - 1) ≤ low
  greatest : high ≤ capacity n
  surrogates : high ≤ 0xD800 ∨ 0xE000 ≤ low

theorem Takes.mono {n low high low' high' : Nat} (h : Takes n low high) (hl : low ≤ low') (hh : high' ≤ high) :
    Takes n low' high' :=
  ⟨h.least.trans hl, hh.trans h.greatest, h.surrogates.imp (hh.trans) (Nat.le_trans · hl)⟩

theorem Takes.utf8Size {n v : Nat} (h : Takes n v (v + 1)) : (Char.ofNat v).utf8Size = n := by
  obtain ⟨hlow, hhigh, hsurrogates⟩ := h
  have hcap : capacity n ≤ 0x110000 := by
    unfold capacity
    split <;> decide
  have hvalid : v.isValidChar := by rw [Nat.isValidChar]; omega
  have hval (k : UInt32) : (Char.ofNat v).val ≤ k ↔ v ≤ k.toNat := by
    rw [UInt32.le_iff_toNat_le, Char.ofNat, dif_pos hvalid]
    exact Iff.rfl
  simp only [Char.utf8Size, hval]
  rcases n with _ | _ | _ | _ | _ | n <;> simp only [capacity, Nat.zero_add, Nat.add_sub_cancel] at hlow hhigh
  · omega
  · simp [show v ≤ 127 by omega]
  · simp [show ¬v ≤ 127 by omega, show v ≤ 2047 by omega]
  · simp [show ¬v ≤ 127 by omega, show ¬v ≤ 2047 by omega, show v ≤ 65535 by omega]
  · simp [show ¬v ≤ 127 by omega, show ¬v ≤ 2047 by omega, show ¬v ≤ 65535 by omega]
  · omega

/-- The partial character becomes one of `n` bytes. -/
structure Partial.Fits (p : Partial) (n : Nat) : Prop where
  owed : 1 ≤ p.owed
  least : 0x80 ≤ p.least
  takes : Takes n (p.bits * 64 ^ p.owed + (p.least.toNat - 0x80) * 64 ^ (p.owed - 1))
    (p.bits * 64 ^ p.owed + (p.greatest.toNat - 0x7F) * 64 ^ (p.owed - 1))

/-- After the second byte, every value of the bits to come is possible. -/
theorem fits_full {n bits k : Nat} (h : Takes n (bits * 64 ^ (k + 1)) ((bits + 1) * 64 ^ (k + 1))) :
    (⟨bits, k + 1, 0x80, 0xBF⟩ : Partial).Fits n := by
  have hrange : (0xBF : UInt8).toNat - 0x7F = 64 := rfl
  refine ⟨Nat.succ_pos k, UInt8.le_refl _, h.mono (Nat.le_add_right _ _) ?_⟩
  simp only [hrange, Nat.add_sub_cancel, Nat.add_mul, Nat.one_mul, Nat.pow_succ, Nat.mul_comm 64, Nat.le_refl]

theorem fits_lead {p : Partial} (h : lead b = .more p) : p.Fits (1 + p.owed) := by
  have hle {k : UInt8} (hk : ¬b < k) : k.toNat ≤ b.toNat := Nat.le_of_not_lt fun hlt => hk (UInt8.lt_iff_toNat_lt.2 hlt)
  have hlt {k : UInt8} (hk : b < k) : b.toNat < k.toNat := UInt8.lt_iff_toNat_lt.1 hk
  have hne {k : UInt8} (hk : ¬b = k) : b.toNat ≠ k.toNat := fun heq => hk (UInt8.toNat_inj.1 heq)
  unfold lead at h
  split at h
  · cases h
  split at h
  · cases h
  next hC2 =>
  have hC2 : 0xC2 ≤ b.toNat := hle hC2
  split at h
  case isTrue hb =>
    have hb : b.toNat < 0xE0 := hlt hb
    obtain rfl := Lead.more.inj h
    exact fits_full ⟨show 0x80 ≤ (b.toNat - 0xC0) * 64 by omega,
      show (b.toNat - 0xC0 + 1) * 64 ≤ 0x800 by omega, by omega⟩
  next hE0 =>
  have hE0 : 0xE0 ≤ b.toNat := hle hE0
  split at h
  · obtain rfl := Lead.more.inj h
    exact ⟨by decide, by decide, by decide, by decide, by decide⟩
  next hneE0 =>
  have hneE0 : b.toNat ≠ 0xE0 := hne hneE0
  split at h
  · obtain rfl := Lead.more.inj h
    exact ⟨by decide, by decide, by decide, by decide, by decide⟩
  next hneED =>
  have hneED : b.toNat ≠ 0xED := hne hneED
  split at h
  case isTrue hb =>
    have hb : b.toNat < 0xF0 := hlt hb
    obtain rfl := Lead.more.inj h
    exact fits_full ⟨show 0x800 ≤ (b.toNat - 0xE0) * 4096 by omega, show (b.toNat - 0xE0 + 1) * 4096 ≤ 0x10000 by omega,
      by omega⟩
  next hF0 =>
  have hF0 : 0xF0 ≤ b.toNat := hle hF0
  split at h
  · obtain rfl := Lead.more.inj h
    exact ⟨by decide, by decide, by decide, by decide, by decide⟩
  next hneF0 =>
  have hneF0 : b.toNat ≠ 0xF0 := hne hneF0
  split at h
  case isTrue hb =>
    have hb : b.toNat < 0xF4 := hlt hb
    obtain rfl := Lead.more.inj h
    exact fits_full ⟨show 0x10000 ≤ (b.toNat - 0xF0) * 262144 by omega,
      show (b.toNat - 0xF0 + 1) * 262144 ≤ 0x110000 by omega, by omega⟩
  split at h
  · obtain rfl := Lead.more.inj h
    exact ⟨by decide, by decide, by decide, by decide, by decide⟩
  · cases h

theorem Partial.Fits.bits_push {p : Partial} {n k : Nat} (h : p.Fits n) (hk : p.owed = k + 1)
    (hb : p.least ≤ b ∧ b ≤ p.greatest) : Takes n ((p.push b).bits * 64 ^ k) (((p.push b).bits + 1) * 64 ^ k) := by
  have h80 : 0x80 ≤ p.least.toNat := UInt8.le_iff_toNat_le.1 h.least
  have hl := UInt8.le_iff_toNat_le.1 hb.1
  have hg := UInt8.le_iff_toNat_le.1 hb.2
  have hpow : p.bits * 64 ^ (k + 1) = p.bits * 64 * 64 ^ k := by rw [Nat.pow_succ, Nat.mul_assoc, Nat.mul_comm 64]
  have htakes := h.takes
  rw [hk, Nat.add_sub_cancel, hpow, ← Nat.add_mul, ← Nat.add_mul] at htakes
  refine htakes.mono (Nat.mul_le_mul_right _ ?_) (Nat.mul_le_mul_right _ ?_)
  · show _ ≤ p.bits * 0x40 + (b.toNat - 0x80)
    omega
  · show p.bits * 0x40 + (b.toNat - 0x80) + 1 ≤ _
    omega

/-- One more byte makes a character of `n` bytes, or goes on to one. -/
theorem Partial.Fits.push {p : Partial} {n : Nat} (h : p.Fits n) (hb : p.least ≤ b ∧ b ≤ p.greatest) :
    (p.owed = 1 → (Char.ofNat (p.push b).bits).utf8Size = n) ∧ (p.owed ≠ 1 → (p.push b).Fits n) := by
  obtain ⟨k, hk⟩ : ∃ k, p.owed = k + 1 := ⟨p.owed - 1, by have := h.owed; omega⟩
  have htakes := h.bits_push hk hb
  refine ⟨fun ho => ?_, fun ho => ?_⟩
  · obtain rfl : k = 0 := by omega
    rw [Nat.pow_zero, Nat.mul_one, Nat.mul_one] at htakes
    exact htakes.utf8Size
  · obtain ⟨j, rfl⟩ : ∃ j, k = j + 1 := ⟨k - 1, by omega⟩
    have hfull := fits_full htakes
    rw [← show p.owed - 1 = j + 1 by omega] at hfull
    exact hfull

theorem utf8Size_lead {c : Char} (h : lead b = .char c) : c.utf8Size = 1 := by
  unfold lead at h
  split at h
  case isTrue hb =>
    obtain rfl := Lead.char.inj h
    have hb : b.toNat < 0x80 := UInt8.lt_iff_toNat_lt.1 hb
    exact Takes.utf8Size ⟨Nat.zero_le _, hb, by omega⟩
  case isFalse =>
    repeat' split at h
    all_goals cases h

theorem mapM_id_cons {c : Char} {xs : List (Option Char)} {cs : List Char} (h : (some c :: xs).mapM id = some cs) :
    ∃ ds, xs.mapM id = some ds ∧ cs = c :: ds := by
  simp only [mapM_cons, id, bind, Option.bind_some, Option.bind_eq_some_iff, pure, Option.some.injEq] at h
  obtain ⟨ds, hds, rfl⟩ := h
  exact ⟨ds, hds, rfl⟩

/-- What is read without gaps is as long as its bytes and the `n` that were read before. -/
theorem size_of_decodeFrom : ∀ {bytes : List UInt8} {pending : Option Partial} {n : Nat} {cs : List Char},
    (match pending with
      | none => n = 0
      | some p => p.Fits (n + p.owed)) → (decodeFrom pending bytes).mapM id = some cs →
      (String.ofList cs).utf8ByteSize = n + bytes.length
  | [], none, _, _, hn, h => by
    simp only [decodeFrom, mapM_nil, pure, Option.some.injEq] at h
    subst h hn
    rfl
  | [], some _, _, _, _, h => by simp [decodeFrom] at h
  | b :: rest, none, n, cs, hn, h => by
    subst hn
    rw [decodeFrom] at h
    split at h
    case h_1 c hc =>
      obtain ⟨cs, hcs, rfl⟩ := mapM_id_cons h
      have := size_of_decodeFrom (n := 0) rfl hcs
      have := utf8Size_lead hc
      rw [String.ofList_cons, String.utf8ByteSize_append, String.utf8ByteSize_singleton, length_cons]
      omega
    case h_2 p hp =>
      have := size_of_decodeFrom (n := 1) (fits_lead hp) h
      rw [length_cons]
      omega
    case h_3 => simp at h
  | b :: rest, some p, n, cs, hp, h => by
    have howed := hp.owed
    rw [decodeFrom] at h
    split at h
    case isTrue hb =>
      obtain ⟨hlast, hmore⟩ := hp.push hb
      split at h
      case isTrue ho =>
        obtain ⟨cs, hcs, rfl⟩ := mapM_id_cons h
        have := size_of_decodeFrom (n := 0) rfl hcs
        have := hlast ho
        rw [String.ofList_cons, String.utf8ByteSize_append, String.utf8ByteSize_singleton, length_cons]
        omega
      case isFalse ho =>
        have htotal : n + p.owed = n + 1 + (p.owed - 1) := by omega
        have hfits : (p.push b).Fits (n + 1 + (p.push b).owed) := htotal ▸ hmore ho
        have := size_of_decodeFrom (n := n + 1) hfits h
        rw [length_cons]
        omega
    case isFalse => split at h <;> simp at h

end Utf8

/-- The text of a token is as long as its bytes, unless those are not UTF-8. -/
theorem Token.size_text {t : Token} (h : t.text ≠ "") : t.text.utf8ByteSize = t.bytes.length := by
  unfold Token.text at *
  cases hs : Utf8.strict? t.bytes with
  | none => simp [hs] at h
  | some s =>
    obtain ⟨cs, hcs, rfl⟩ := Option.map_eq_some_iff.1 hs
    simpa using Utf8.size_of_decodeFrom (n := 0) rfl hcs

theorem Token.size_text_le (t : Token) : t.text.utf8ByteSize ≤ t.bytes.length := by
  by_cases h : t.text = ""
  · simp [h]
  · exact (Token.size_text h).le

end Deferral
