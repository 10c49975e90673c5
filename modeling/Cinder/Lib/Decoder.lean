/-
Bounded decoders over a buffer, and what they do on an encoding that a crash has cut
short.

A decoder stops for one of two reasons: the buffer ended (`Stop.short`), or the symbols are not
admissible (`Stop.invalid`). `Codes d w a` says that `d` reads the word `w` as `a` and that on
every PROPER prefix of `w` it stops SHORT -- a cut never looks like garbage. That composes along
`>>=` (`Codes.bind`), so a record format gets it field by field.

`Local d` is for buffers nobody has encoded: what `d` reads depends on the symbols up to where it
stops and on nothing behind them. `Exact d R` says which words `d` accepts, for decoders that may
look at how much is left.
-/
import Mathlib.Data.UInt
import Mathlib.Tactic.Ring

namespace Decoding

structure Cursor (β : Type) where
  data : List β
  pos : Nat := 0
  deriving DecidableEq, Repr

inductive Stop where
  | short | invalid
  deriving DecidableEq, Repr

/-- A decoder: the outcome, and the cursor where it left off (also when it stopped). -/
def Decoder (β α : Type) : Type := Cursor β → Except Stop α × Cursor β

namespace Decoder

variable {β α γ : Type}

instance : Monad (Decoder β) where
  pure a := fun c => (.ok a, c)
  bind d f := fun c =>
    match d c with
    | (.ok a, c') => f a c'
    | (.error s, c') => (.error s, c')

def reject : Decoder β α := fun c => (.error .invalid, c)

/-- The next `n` symbols; nothing is consumed when fewer are left. -/
def take (n : Nat) : Decoder β (List β) := fun c =>
  if c.pos + n ≤ c.data.length then (.ok ((c.data.drop c.pos).take n), { c with pos := c.pos + n })
  else (.error .short, c)

end Decoder

open Decoder

variable {β α γ : Type}

/-! ## 1. Decoders on whole and on cut words -/

/-- **`d` codes `a` as `w`**: wherever `w` stands in a buffer, `d` reads `a` and stops right
behind it; where the buffer ends inside `w`, `d` stops short. -/
structure Codes (d : Decoder β α) (w : List β) (a : α) : Prop where
  whole : ∀ l r, d ⟨l ++ w ++ r, l.length⟩ = (.ok a, ⟨l ++ w ++ r, l.length + w.length⟩)
  cut : ∀ l p, p <+: w → p ≠ w → ∃ n, d ⟨l ++ p, l.length⟩ = (.error .short, ⟨l ++ p, n⟩)

theorem codes_pure (a : α) : Codes (pure a : Decoder β α) [] a where
  whole l r := by simp [pure]
  cut l p hp hne := absurd (List.prefix_nil.mp hp) hne

variable {w : List β} {d : Decoder β α} {f : α → Decoder β γ} {n : Nat}

theorem prefix_append_cases {p w' : List β} (h : p <+: w ++ w') :
    (p <+: w ∧ p ≠ w) ∨ ∃ q, p = w ++ q ∧ q <+: w' := by
  rcases List.prefix_or_prefix_of_prefix h (List.prefix_append w w') with hpw | ⟨q, rfl⟩
  · by_cases hne : p = w
    · exact .inr ⟨[], by simp [hne], List.nil_prefix⟩
    · exact .inl ⟨hpw, hne⟩
  · exact .inr ⟨q, rfl, (List.prefix_append_right_inj w).mp h⟩

theorem Codes.bind {w' : List β} {a : α} {b : γ} (hd : Codes d w a) (hf : Codes (f a) w' b) :
    Codes (d >>= f) (w ++ w') b where
  whole l r := by
    have h1 := hd.whole l (w' ++ r)
    have h2 := hf.whole (l ++ w) r
    simp only [List.append_assoc, List.length_append] at h1 h2 ⊢
    simp only [Bind.bind, h1, h2, add_assoc]
  cut l p hp hne := by
    rcases prefix_append_cases hp with ⟨hpw, hpne⟩ | ⟨q, rfl, hq⟩
    · obtain ⟨n, hn⟩ := hd.cut l p hpw hpne
      exact ⟨n, by simp only [Bind.bind, hn]⟩
    · have hqne : q ≠ w' := fun h => hne (by rw [h])
      obtain ⟨n, hn⟩ := hf.cut (l ++ w) q hq hqne
      have h1 := hd.whole l q
      simp only [List.append_assoc, List.length_append] at h1 hn ⊢
      exact ⟨n, by simp only [Bind.bind, h1, hn]⟩

theorem codes_take (w : List β) : Codes (take w.length) w w where
  whole l r := by simp [take]
  cut l p hp hne := by
    have hlt : p.length < w.length := lt_of_le_of_ne hp.length_le fun h => hne (hp.eq_of_length h)
    exact ⟨l.length, by simp [take, hlt]⟩

theorem codes_take_of_length (h : w.length = n) : Codes (take n) w w := h ▸ codes_take w

theorem Codes.map {a : α} (hd : Codes d w a) (g : α → γ) :
    Codes (do let x ← d; pure (g x)) w (g a) := by
  simpa using hd.bind (f := fun x => pure (g x)) (codes_pure (g a))

/-! ## 2. Locality -/

/-- **`d` is local**: a successful read takes at least `n` symbols and ends inside the buffer,
and every buffer that agrees up to that end reads the same. -/
structure Local (n : Nat) (d : Decoder β α) : Prop where
  read : ∀ {data : List β} {pos : Nat} {a : α} {c : Cursor β}, pos ≤ data.length →
    d ⟨data, pos⟩ = (.ok a, c) →
      ∃ stop, c = ⟨data, stop⟩ ∧ pos + n ≤ stop ∧ stop ≤ data.length ∧
        ∀ data', data'.take stop = data.take stop → d ⟨data', pos⟩ = (.ok a, ⟨data', stop⟩)

theorem Local.mono {m : Nat} (hd : Local n d) (h : m ≤ n) : Local m d := by
  refine ⟨fun hpos hread => ?_⟩
  obtain ⟨stop, hc, hle, hrest⟩ := hd.read hpos hread
  exact ⟨stop, hc, by omega, hrest⟩

theorem local_pure (a : α) : Local 0 (pure a : Decoder β α) := by
  refine ⟨fun {data pos b c} hpos h => ?_⟩
  cases h
  exact ⟨pos, rfl, le_rfl, hpos, fun _ _ => rfl⟩

theorem local_reject : Local n (reject : Decoder β α) := ⟨fun _ h => by cases h⟩

theorem take_eq_of_le {l l' : List β} {m : Nat} (h : l.take n = l'.take n) (hmn : m ≤ n) :
    l.take m = l'.take m := by
  have := congrArg (List.take m) h
  rwa [List.take_take, List.take_take, Nat.min_eq_left hmn] at this

theorem local_take (n : Nat) : Local n (take n : Decoder β (List β)) := by
  refine ⟨fun {data pos a c} hpos h => ?_⟩
  unfold take at h
  split at h
  · rename_i hle
    cases h
    refine ⟨pos + n, rfl, le_rfl, hle, fun data' hagree => ?_⟩
    have hlen : pos + n ≤ data'.length := by
      have := congrArg List.length hagree
      simp only [List.length_take, Nat.min_eq_left hle] at this
      omega
    have hread : (data'.drop pos).take n = (data.drop pos).take n := by
      have := congrArg (List.drop pos) hagree
      rwa [List.drop_take, List.drop_take, Nat.add_sub_cancel_left] at this
    simp only [take, if_pos hlen, hread]
  · cases h

theorem Local.bind {m : Nat} (hd : Local m d) (hf : ∀ a, Local n (f a)) :
    Local (m + n) (d >>= f) := by
  refine ⟨fun {data pos b c} hpos h => ?_⟩
  cases hr : d ⟨data, pos⟩ with
  | mk r c₁ =>
    cases r with
    | error s =>
      simp only [Bind.bind, hr] at h
      cases h
    | ok a =>
      simp only [Bind.bind, hr] at h
      obtain ⟨mid, rfl, hle, hmid, hagree⟩ := hd.read hpos hr
      obtain ⟨stop, rfl, hle', hstop, hagree'⟩ := (hf a).read hmid h
      have hmidstop : mid ≤ stop := by omega
      refine ⟨stop, rfl, by omega, hstop, fun data' heq => ?_⟩
      simp only [Bind.bind, hagree data' (take_eq_of_le heq hmidstop), hagree' data' heq]

structure Ensures (d : Decoder β α) (P : α → Prop) : Prop where
  holds : ∀ {c a c'}, d c = (.ok a, c') → P a

theorem ensures_pure {P : α → Prop} {a : α} (h : P a) : Ensures (pure a : Decoder β α) P := by
  refine ⟨fun hread => ?_⟩
  cases hread
  exact h

theorem ensures_bind {P : γ → Prop} (hf : ∀ a, Ensures (f a) P) : Ensures (d >>= f) P := by
  refine ⟨fun {c b c'} h => ?_⟩
  cases hr : d c with
  | mk r c₁ =>
    cases r with
    | error s =>
      simp only [Bind.bind, hr] at h
      cases h
    | ok a =>
      simp only [Bind.bind, hr] at h
      exact (hf a).holds h

/-! ## 3. Decoders that read exactly a relation -/

/-- **`d` reads exactly `R`**: it accepts if and only if the buffer goes on with a word `w` and a
rest `r` that `R` relates to what it returns, and then it stops behind `w`. -/
def Exact (d : Decoder β α) (R : α → List β → List β → Prop) : Prop :=
  ∀ l s a c, d ⟨l ++ s, l.length⟩ = (.ok a, c) ↔
    ∃ w r, s = w ++ r ∧ c = ⟨l ++ s, l.length + w.length⟩ ∧ R a w r

theorem bind_eq_ok {b : γ} {c c' : Cursor β} :
    (d >>= f) c = (.ok b, c') ↔ ∃ a c₁, d c = (.ok a, c₁) ∧ f a c₁ = (.ok b, c') := by
  simp only [Bind.bind]
  cases hr : d c with
  | mk r c₁ => cases r <;> simp

theorem exact_pure (a : α) : Exact (pure a : Decoder β α) fun b w _ => b = a ∧ w = [] := by
  intro l s b c
  constructor
  · intro h
    cases h
    exact ⟨[], s, rfl, rfl, rfl, rfl⟩
  · rintro ⟨w, r, rfl, rfl, rfl, rfl⟩
    rfl

theorem exact_reject : Exact (reject : Decoder β α) fun _ _ _ => False := by
  intro l s a c
  simp [reject]

theorem exact_take (n : Nat) :
    Exact (take n : Decoder β (List β)) fun a w _ => a = w ∧ w.length = n := by
  intro l s a c
  simp only [take, List.length_append, Nat.add_le_add_iff_left, List.drop_left]
  constructor
  · intro h
    split at h
    · rename_i hle
      cases h
      have hlen : (s.take n).length = n := List.length_take_of_le hle
      exact ⟨s.take n, s.drop n, (List.take_append_drop n s).symm, by rw [hlen], rfl, hlen⟩
    · cases h
  · rintro ⟨w, r, rfl, rfl, rfl, rfl⟩
    simp

variable {R R' : α → List β → List β → Prop}

theorem Exact.bind {S : α → γ → List β → List β → Prop}
    (hd : Exact d R) (hf : ∀ a, Exact (f a) (S a)) :
    Exact (d >>= f) fun b w r => ∃ a u v, w = u ++ v ∧ R a u (v ++ r) ∧ S a b v r := by
  intro l s b c
  rw [bind_eq_ok]
  constructor
  · rintro ⟨a, c₁, hda, hfa⟩
    obtain ⟨u, t, rfl, rfl, hR⟩ := (hd l s a c₁).mp hda
    rw [← List.append_assoc, ← List.length_append] at hfa
    obtain ⟨v, r, rfl, rfl, hS⟩ := (hf a (l ++ u) t b c).mp hfa
    exact ⟨u ++ v, r, (List.append_assoc ..).symm, by simp [add_assoc], a, u, v, rfl, hR, hS⟩
  · rintro ⟨w, r, rfl, rfl, a, u, v, rfl, hR, hS⟩
    refine ⟨a, _, (hd l _ a _).mpr ⟨u, v ++ r, List.append_assoc .., rfl, hR⟩, ?_⟩
    have hread := (hf a (l ++ u) (v ++ r) b _).mpr ⟨v, r, rfl, rfl, hS⟩
    simpa [add_assoc] using hread

theorem Exact.congr (hd : Exact d R) (h : ∀ a w r, R a w r ↔ R' a w r) : Exact d R' := by
  intro l s a c
  simp only [hd l s a c, h]

theorem Exact.map (hd : Exact d R) (g : α → γ) :
    Exact (do let x ← d; pure (g x)) fun b w r => ∃ a, b = g a ∧ R a w r := by
  refine (hd.bind fun a => exact_pure (g a)).congr fun b w r => ?_
  constructor
  · rintro ⟨a, u, v, rfl, hR, rfl, rfl⟩
    exact ⟨a, rfl, by simpa using hR⟩
  · rintro ⟨a, rfl, hR⟩
    exact ⟨a, w, [], by simp, hR, rfl, rfl⟩

/-- The optional field of a flag. -/
def Decoder.when (b : Bool) (d : Decoder β α) : Decoder β (Option α) :=
  bif b then do let a ← d; pure (some a) else pure none

theorem Exact.when (b : Bool) (hd : Exact d R) : Exact (Decoder.when b d) fun o w r =>
    o.isSome = b ∧ o.elim (w = []) fun a => R a w r := by
  cases b with
  | false => exact (exact_pure none).congr fun o w r => by cases o <;> simp
  | true => exact (hd.map some).congr fun o w r => by cases o <;> simp

/-- The trailing field of a flag: `d` where `n` symbols are left, and `a` otherwise. -/
def Decoder.whenLeft (flag : Bool) (n : Nat) (a : α) (d : Decoder β α) : Decoder β α := fun c =>
  if flag ∧ n ≤ c.data.length - c.pos then d c else (.ok a, c)

theorem Exact.whenLeft (flag : Bool) (n : Nat) (a : α) (hd : Exact d R) :
    Exact (Decoder.whenLeft flag n a d) fun b w r =>
      if flag ∧ n ≤ (w ++ r).length then R b w r else b = a ∧ w = [] := by
  intro l s b c
  simp only [Decoder.whenLeft, List.length_append, Nat.add_sub_cancel_left]
  by_cases hn : flag ∧ n ≤ s.length
  · rw [if_pos hn, hd]
    constructor <;> rintro ⟨w, r, rfl, hc, hR⟩
    · exact ⟨w, r, rfl, hc, by rwa [if_pos (List.length_append ▸ hn)]⟩
    · exact ⟨w, r, rfl, hc, by rwa [if_pos (List.length_append ▸ hn)] at hR⟩
  · rw [if_neg hn]
    constructor
    · intro h
      cases h
      exact ⟨[], s, rfl, rfl, by simpa using fun hflag hle => absurd ⟨hflag, hle⟩ hn⟩
    · rintro ⟨w, r, rfl, rfl, hR⟩
      rw [if_neg (List.length_append ▸ hn)] at hR
      obtain ⟨rfl, rfl⟩ := hR
      rfl

/-- Everything up to the last `k` symbols. -/
def Decoder.takeRest (k : Nat) : Decoder β (List β) := fun c => take (c.data.length - c.pos - k) c

theorem exact_takeRest (k : Nat) : Exact (Decoder.takeRest k : Decoder β (List β))
    fun a w r => a = w ∧ w.length = (w ++ r).length - k := by
  intro l s a c
  simp only [Decoder.takeRest, List.length_append, Nat.add_sub_cancel_left]
  rw [exact_take]
  constructor <;> rintro ⟨w, r, rfl, hc, ha, hw⟩ <;> exact ⟨w, r, rfl, hc, ha, by simpa using hw⟩

/-! ## 4. Numbers of a fixed width -/

/-- The `w` low bytes of `n`, least significant first. -/
def leBytes : Nat → Nat → List UInt8
  | 0, _ => []
  | w + 1, n => UInt8.ofNat n :: leBytes w (n / 256)

/-- The number a little-endian byte string stands for. -/
def leNat : List UInt8 → Nat
  | [] => 0
  | b :: bs => b.toNat + 256 * leNat bs

@[simp] theorem length_leBytes (w n : Nat) : (leBytes w n).length = w := by
  induction w generalizing n with
  | zero => rfl
  | succ w ih => simp [leBytes, ih]

theorem leNat_leBytes (w n : Nat) : leNat (leBytes w n) = n % 256 ^ w := by
  induction w generalizing n with
  | zero => simp [leBytes, leNat, Nat.mod_one]
  | succ w ih =>
    have hlow : (UInt8.ofNat n).toNat = n % 256 := by simp
    rw [leBytes, leNat, ih, hlow, Nat.pow_succ', Nat.mod_mul]

theorem leNat_leBytes_of_lt {w : Nat} (h : n < 256 ^ w) : leNat (leBytes w n) = n := by
  rw [leNat_leBytes, Nat.mod_eq_of_lt h]

def readLe (w : Nat) : Decoder UInt8 Nat := do
  let bs ← take w
  pure (leNat bs)

theorem local_readLe (w : Nat) : Local w (readLe w) := (local_take w).bind fun _ => local_pure _

theorem codes_readLe {w : Nat} (h : n < 256 ^ w) : Codes (readLe w) (leBytes w n) n := by
  have := (codes_take_of_length (length_leBytes w n)).map leNat
  rwa [leNat_leBytes_of_lt h] at this

theorem leNat_lt (bs : List UInt8) : leNat bs < 256 ^ bs.length := by
  induction bs with
  | nil => exact Nat.one_pos
  | cons b bs ih =>
    have hb := b.toNat_lt
    simp only [leNat, List.length_cons, Nat.pow_succ']
    omega

theorem leBytes_leNat (bs : List UInt8) : leBytes bs.length (leNat bs) = bs := by
  induction bs with
  | nil => rfl
  | cons b bs ih =>
    have hb := b.toNat_lt
    have hdiv : (b.toNat + 256 * leNat bs) / 256 = leNat bs := by omega
    have hlow : UInt8.ofNat (b.toNat + 256 * leNat bs) = b :=
      UInt8.toNat_inj.mp (by rw [UInt8.toNat_ofNat']; omega)
    rw [List.length_cons, leBytes, leNat, hdiv, ih, hlow]

def beBytes (k n : Nat) : List UInt8 := (leBytes k n).reverse

@[simp] theorem length_beBytes (k n : Nat) : (beBytes k n).length = k := by
  simp [beBytes]

theorem beBytes_mod (k n : Nat) : beBytes k (n % 256 ^ k) = beBytes k n := by
  have h := leBytes_leNat (leBytes k n)
  rw [length_leBytes, leNat_leBytes] at h
  rw [beBytes, h, beBytes]

def readBe (k : Nat) : Decoder UInt8 Nat := do
  let bs ← take k
  pure (leNat bs.reverse)

theorem exact_readBe (k : Nat) : Exact (readBe k) fun n w _ => n < 256 ^ k ∧ w = beBytes k n := by
  refine ((exact_take k).map fun bs => leNat bs.reverse).congr fun n w r => ?_
  constructor
  · rintro ⟨bs, rfl, rfl, rfl⟩
    have hlt := leNat_lt bs.reverse
    have hback := leBytes_leNat bs.reverse
    rw [List.length_reverse] at hlt hback
    exact ⟨hlt, by rw [beBytes, hback, List.reverse_reverse]⟩
  · rintro ⟨hn, rfl⟩
    refine ⟨_, ?_, rfl, length_beBytes k n⟩
    rw [beBytes, List.reverse_reverse, leNat_leBytes_of_lt hn]

end Decoding
