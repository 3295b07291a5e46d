import Stepwise.Library.Global
import Stepwise.Proofs.Decimal.Text

/-!
# The numeral at the front of a text

* `IsNumeral`: the texts of decimal numerals.
* `NumeralScan.Follows`: what completes a numeral that has been read up to some point.
* `NumeralScan.finds_scanNumeral`: the scan goes on to the longest of these.
* `Library.parseFloat_longest`: the number that a text starts with is that of its longest numeral.
-/

namespace Stepwise

/-! ### Numerals -/

/-- A sign, or none. -/
inductive IsSign : List Char → Prop where
  | none : IsSign []
  | plus : IsSign ['+']
  | minus : IsSign ['-']

/-- Digits with an optional point and further digits, or a point followed by digits. -/
inductive IsMantissa : List Char → Prop where
  | whole {ds : List Char} (hds : AllDigits ds) (hne : ds ≠ []) : IsMantissa ds
  | pointed {ds fs : List Char} (hds : AllDigits ds) (hne : ds ≠ []) (hfs : AllDigits fs) : IsMantissa (ds ++ '.' :: fs)
  | fraction {fs : List Char} (hfs : AllDigits fs) (hne : fs ≠ []) : IsMantissa ('.' :: fs)

/-- A mark, an optional sign and digits, or no exponent. -/
inductive IsExponent : List Char → Prop where
  | none : IsExponent []
  | marked {mark : Char} {sign ds : List Char} (hmark : mark = 'e' ∨ mark = 'E') (hsign : IsSign sign)
    (hds : AllDigits ds) (hne : ds ≠ []) : IsExponent (mark :: (sign ++ ds))

/-- A decimal numeral. -/
def IsNumeral (t : List Char) : Prop :=
  ∃ sign mantissa exponent, IsSign sign ∧ IsMantissa mantissa ∧ IsExponent exponent ∧
    t = sign ++ (mantissa ++ exponent)

/-- A text whose last character is a digit. -/
def EndsInDigit (t : List Char) : Prop := ∃ c, t.getLast? = some c ∧ c.isDigit

/-- A front of a text that is a numeral and ends in a digit. -/
structure IsNumeralFront (cs t : List Char) : Prop where
  front : t <+: cs
  numeral : IsNumeral t
  digit : EndsInDigit t

/-- The longest front of a text that is a numeral and ends in a digit. -/
structure IsLongestNumeral (cs t : List Char) : Prop extends IsNumeralFront cs t where
  longest : ∀ u, IsNumeralFront cs u → u.length ≤ t.length

theorem IsNumeralFront.ne_nil {cs t : List Char} (ht : IsNumeralFront cs t) : t ≠ [] := by
  rintro rfl
  obtain ⟨c, hc, -⟩ := ht.digit
  cases hc

namespace EndsInDigit

variable {c : Char} {t : List Char}

theorem not_nil : ¬EndsInDigit [] := nofun

theorem singleton_iff : EndsInDigit [c] ↔ c.isDigit := by simp [EndsInDigit]

theorem cons_iff (h : t ≠ []) : EndsInDigit (c :: t) ↔ EndsInDigit t := by
  cases t with
  | nil => exact absurd rfl h
  | cons d t => simp [EndsInDigit]

/-- What does not end in its first character ends further on. -/
theorem cons_iff_of_not_isDigit (hc : ¬c.isDigit) : EndsInDigit (c :: t) ↔ EndsInDigit t := by
  cases t with
  | nil => exact iff_of_false (fun h => hc (singleton_iff.1 h)) not_nil
  | cons d t => exact cons_iff nofun

end EndsInDigit

theorem allDigits_cons {c : Char} {t : List Char} : AllDigits (c :: t) ↔ c.isDigit ∧ AllDigits t := List.forall_mem_cons

/-! ### The rest of a numeral -/

/-- What completes a mantissa, if digits were read before or not, and its point was read or not. -/
def IsMantissaRest (digits point : Prop) (m : List Char) : Prop :=
  AllDigits m ∧ (digits ∨ m ≠ []) ∨
    ¬point ∧ ∃ ds fs, m = ds ++ '.' :: fs ∧ AllDigits ds ∧ AllDigits fs ∧ (digits ∨ ds ≠ [] ∨ fs ≠ [])

namespace IsMantissaRest

variable {digits point : Prop} {c : Char} {m : List Char}

theorem nil_iff : IsMantissaRest digits point [] ↔ digits := by simp [IsMantissaRest, AllDigits]

theorem cons_iff : IsMantissaRest digits point (c :: m) ↔
    c.isDigit ∧ IsMantissaRest True point m ∨ c = '.' ∧ ¬point ∧ IsMantissaRest digits True m := by
  unfold IsMantissaRest
  constructor
  · rintro (⟨hm, -⟩ | ⟨hp, ds, fs, he, hds, hfs, hne⟩)
    · obtain ⟨hc, hm⟩ := allDigits_cons.1 hm
      exact .inl ⟨hc, .inl ⟨hm, .inl trivial⟩⟩
    · cases ds with
      | nil =>
        cases he
        exact .inr ⟨rfl, hp, .inl ⟨hfs, hne.imp_right (·.resolve_left (absurd rfl))⟩⟩
      | cons d ds =>
        cases he
        obtain ⟨hd, hds⟩ := allDigits_cons.1 hds
        exact .inl ⟨hd, .inr ⟨hp, ds, fs, rfl, hds, hfs, .inl trivial⟩⟩
  · rintro (⟨hc, ⟨hm, -⟩ | ⟨hp, ds, fs, rfl, hds, hfs, -⟩⟩ | ⟨rfl, hp, ⟨hm, hne⟩ | ⟨hp', -⟩⟩)
    · exact .inl ⟨allDigits_cons.2 ⟨hc, hm⟩, .inr nofun⟩
    · exact .inr ⟨hp, c :: ds, fs, rfl, allDigits_cons.2 ⟨hc, hds⟩, hfs, .inr (.inl nofun)⟩
    · exact .inr ⟨hp, [], m, rfl, List.forall_mem_nil _, hm, hne.imp_right .inr⟩
    · exact absurd trivial hp'

/-- At the beginning everything is left. -/
theorem iff_isMantissa : IsMantissaRest False False m ↔ IsMantissa m := by
  constructor
  · rintro (⟨hm, h⟩ | ⟨-, ds, fs, rfl, hds, hfs, h⟩)
    · exact .whole hm (h.resolve_left id)
    · cases ds with
      | nil => exact .fraction hfs ((h.resolve_left id).resolve_left (absurd rfl))
      | cons d ds => exact .pointed hds nofun hfs
  · rintro (⟨hds, hne⟩ | ⟨hds, hne, hfs⟩ | ⟨hfs, hne⟩)
    · exact .inl ⟨hds, .inr hne⟩
    · exact .inr ⟨id, _, _, rfl, hds, hfs, .inr (.inl hne)⟩
    · exact .inr ⟨id, [], _, rfl, List.forall_mem_nil _, hfs, .inr (.inr hne)⟩

end IsMantissaRest

namespace Library.NumeralScan

/-- What completes the numeral that a scan has begun to read, and ends in a digit. -/
def Follows (s : NumeralScan) (t : List Char) : Prop :=
  EndsInDigit t ∧
    if s.sawExponent then AllDigits t
    else ∃ sign mantissa exponent, IsSign sign ∧ (sign = [] ∨ s.read = 0) ∧
      IsMantissaRest (0 < s.length) s.sawPoint mantissa ∧ IsExponent exponent ∧ t = sign ++ (mantissa ++ exponent)

variable {s : NumeralScan} {c d : Char} {t : List Char}

theorem not_follows_nil : ¬s.Follows [] := fun h => EndsInDigit.not_nil h.1

/-- At the beginning of a scan everything is left. -/
theorem follows_iff_isNumeral : Follows {} t ↔ IsNumeral t ∧ EndsInDigit t := by
  unfold Follows IsNumeral
  simp [IsMantissaRest.iff_isMantissa, and_comm]

/-- Without a sign, what follows is the rest of the mantissa and an exponent. -/
theorem follows_iff (he : ¬s.sawExponent) (hsign : s.read ≠ 0 ∨ ∀ c ∈ t.head?, c ≠ '+' ∧ c ≠ '-') : s.Follows t ↔
    EndsInDigit t ∧ ∃ mantissa exponent, IsMantissaRest (0 < s.length) s.sawPoint mantissa ∧
      IsExponent exponent ∧ t = mantissa ++ exponent := by
  unfold Follows
  rw [if_neg he]
  refine and_congr_right fun _ => ⟨?_, fun ⟨m, e, hm, hexp, ht⟩ => ⟨[], m, e, .none, .inl rfl, hm, hexp, ht⟩⟩
  rintro ⟨sign, m, e, hs, hread, hm, hexp, rfl⟩
  cases hs with
  | none => exact ⟨m, e, hm, hexp, rfl⟩
  | plus => exact absurd rfl (hsign.resolve_left (· (hread.resolve_left nofun)) '+' rfl).1
  | minus => exact absurd rfl (hsign.resolve_left (· (hread.resolve_left nofun)) '-' rfl).2

/-- What follows goes on with a character of the mantissa or with the mark of an exponent. -/
theorem follows_cons_iff (he : ¬s.sawExponent) (hsign : s.read ≠ 0 ∨ c ≠ '+' ∧ c ≠ '-') : s.Follows (c :: t) ↔
    EndsInDigit (c :: t) ∧
      ((∃ mantissa exponent, IsMantissaRest (0 < s.length) s.sawPoint (c :: mantissa) ∧ IsExponent exponent ∧
          t = mantissa ++ exponent) ∨ 0 < s.length ∧ IsExponent (c :: t)) := by
  rw [follows_iff he (hsign.imp_right fun h d hd => by cases hd; exact h)]
  refine and_congr_right fun _ => ⟨?_, ?_⟩
  · rintro ⟨m, e, hm, hexp, ht⟩
    cases m with
    | nil => exact .inr ⟨IsMantissaRest.nil_iff.1 hm, ht ▸ hexp⟩
    | cons d m =>
      cases ht
      exact .inl ⟨m, e, hm, hexp, rfl⟩
  · rintro (⟨m, e, hm, hexp, rfl⟩ | ⟨hlen, hexp⟩)
    · exact ⟨c :: m, e, hm, hexp, rfl⟩
    · exact ⟨[], c :: t, IsMantissaRest.nil_iff.2 hlen, hexp, rfl⟩

/-- Behind a mark, what follows are digits. -/
theorem follows_exponent_iff (he : s.sawExponent) : s.Follows t ↔ AllDigits t ∧ t ≠ [] := by
  unfold Follows
  rw [if_pos he]
  refine ⟨fun ⟨hend, ht⟩ => ⟨ht, ?_⟩, fun ⟨ht, hne⟩ => ⟨⟨t.getLast hne, List.getLast?_eq_some_getLast hne, ?_⟩, ht⟩⟩
  · rintro rfl
    exact EndsInDigit.not_nil hend
  · exact ht _ (List.getLast_mem hne)

theorem isExponent_cons_iff : IsExponent (c :: t) ↔
    (c = 'e' ∨ c = 'E') ∧ ∃ sign ds, IsSign sign ∧ AllDigits ds ∧ ds ≠ [] ∧ t = sign ++ ds := by
  constructor
  · rintro ⟨⟩
    exact ⟨‹_›, _, _, ‹_›, ‹_›, ‹_›, rfl⟩
  · rintro ⟨hmark, sign, ds, hsign, hds, hne, rfl⟩
    exact .marked hmark hsign hds hne

/-- A digit may be the last character. -/
theorem follows_digit (hc : c.isDigit) :
    s.Follows (c :: t) ↔ t = [] ∨ Follows { s with read := s.read + 1, length := s.read + 1 } t := by
  have hne : ∀ d, d.isDigit = false → c ≠ d := fun _ => ne_of_isDigit hc
  by_cases ht : t = []
  · subst ht
    refine iff_of_true ⟨EndsInDigit.singleton_iff.2 hc, ?_⟩ (.inl rfl)
    split
    · exact allDigits_cons.2 ⟨hc, List.forall_mem_nil _⟩
    · exact ⟨[], [c], [], .none, .inl rfl, IsMantissaRest.cons_iff.2 (.inl ⟨hc, IsMantissaRest.nil_iff.2 trivial⟩), .none, rfl⟩
  · rw [or_iff_right ht]
    by_cases he : s.sawExponent
    · rw [follows_exponent_iff he, follows_exponent_iff (by exact he), allDigits_cons]
      simp [hc, ht]
    · rw [follows_cons_iff he (.inr ⟨hne _ rfl, hne _ rfl⟩), follows_iff (by exact he) (.inl (Nat.succ_ne_zero _)),
        EndsInDigit.cons_iff ht]
      simp [IsMantissaRest.cons_iff, isExponent_cons_iff, hc, hne]

/-- A point is never the last character. -/
theorem follows_point (hp : ¬s.sawPoint) (he : ¬s.sawExponent) :
    s.Follows ('.' :: t) ↔ Follows { s with read := s.read + 1, sawPoint := true } t := by
  rw [follows_cons_iff he (.inr (by decide)), follows_iff (by exact he) (.inl (Nat.succ_ne_zero _)),
    EndsInDigit.cons_iff_of_not_isDigit (by decide)]
  simp [IsMantissaRest.cons_iff, isExponent_cons_iff, hp]

/-- A sign at the beginning is never the last character. -/
theorem follows_sign (hc : c = '+' ∨ c = '-') (hr : s.read = 0) (he : ¬s.sawExponent) :
    s.Follows (c :: t) ↔ Follows { s with read := s.read + 1 } t := by
  have hdigit : ¬c.isDigit := by rcases hc with rfl | rfl <;> decide
  have hsign : IsSign [c] := by
    rcases hc with rfl | rfl
    · exact .plus
    · exact .minus
  rw [follows_iff (s := { s with read := s.read + 1 }) he (.inl (Nat.succ_ne_zero _)),
    ← EndsInDigit.cons_iff_of_not_isDigit hdigit]
  unfold Follows
  rw [if_neg he]
  refine and_congr_right fun _ => ⟨?_, fun ⟨m, e, hm, hexp, ht⟩ => ⟨[c], m, e, hsign, .inr hr, hm, hexp, ht ▸ rfl⟩⟩
  rintro ⟨sign, m, e, hs, -, hm, hexp, ht⟩
  cases hs with
  | plus | minus => exact ⟨m, e, hm, hexp, (List.cons.inj ht).2⟩
  | none =>
    cases m with
    | nil =>
      rw [← show c :: t = e from ht, isExponent_cons_iff] at hexp
      rcases hc with rfl | rfl <;> simp at hexp
    | cons d m =>
      cases ht
      rw [IsMantissaRest.cons_iff] at hm
      rcases hc with rfl | rfl <;> simp at hm

/-- The mark of an exponent stands behind digits, and digits with an optional sign follow it. -/
theorem follows_mark (hc : c = 'e' ∨ c = 'E') (he : ¬s.sawExponent) (hlen : 0 < s.length) :
    s.Follows (c :: t) ↔ ∃ sign ds, IsSign sign ∧ AllDigits ds ∧ ds ≠ [] ∧ t = sign ++ ds := by
  have hdigit : ¬c.isDigit ∧ c ≠ '.' ∧ c ≠ '+' ∧ c ≠ '-' := by rcases hc with rfl | rfl <;> decide
  rw [follows_cons_iff he (.inr hdigit.2.2)]
  constructor
  · rintro ⟨-, ⟨m, e, hm, -⟩ | ⟨-, hexp⟩⟩
    · rcases IsMantissaRest.cons_iff.1 hm with ⟨h, -⟩ | ⟨h, -⟩
      · exact absurd h hdigit.1
      · exact absurd h hdigit.2.1
    · exact (isExponent_cons_iff.1 hexp).2
  · rintro ⟨sign, ds, hsign, hds, hne, rfl⟩
    refine ⟨⟨ds.getLast hne, ?_, hds _ (List.getLast_mem hne)⟩, .inr ⟨hlen, .marked hc hsign hds hne⟩⟩
    rw [← List.cons_append, List.getLast?_append_of_ne_nil _ hne, List.getLast?_eq_some_getLast hne]

/-- The sign of an exponent is read together with its mark. -/
theorem follows_mark_sign (hc : c = 'e' ∨ c = 'E') (he : ¬s.sawExponent) (hlen : 0 < s.length) (hd : d = '+' ∨ d = '-') :
    s.Follows (c :: d :: t) ↔ Follows { s with read := s.read + 2, sawExponent := true } t := by
  rw [follows_mark hc he hlen, follows_exponent_iff rfl]
  constructor
  · rintro ⟨sign, ds, hsign, hds, hne, ht⟩
    cases hsign with
    | plus | minus =>
      cases ht
      exact ⟨hds, hne⟩
    | none =>
      obtain rfl : d :: t = ds := ht
      have hdigit := hds d List.mem_cons_self
      rcases hd with rfl | rfl <;> cases hdigit
  · rintro ⟨ht, hne⟩
    rcases hd with rfl | rfl
    · exact ⟨['+'], t, .plus, ht, hne, rfl⟩
    · exact ⟨['-'], t, .minus, ht, hne, rfl⟩

/-- Without a sign, the digits stand behind the mark. -/
theorem follows_mark_digits (hc : c = 'e' ∨ c = 'E') (he : ¬s.sawExponent) (hlen : 0 < s.length)
    (ht : ∀ d ∈ t.head?, ¬(d = '+' ∨ d = '-')) :
    s.Follows (c :: t) ↔ Follows { s with read := s.read + 1, sawExponent := true } t := by
  rw [follows_mark hc he hlen, follows_exponent_iff rfl]
  constructor
  · rintro ⟨sign, ds, hsign, hds, hne, rfl⟩
    cases hsign with
    | none => exact ⟨hds, hne⟩
    | plus => exact absurd (.inl rfl) (ht '+' rfl)
    | minus => exact absurd (.inr rfl) (ht '-' rfl)
  · exact fun ⟨hds, hne⟩ => ⟨[], t, .none, hds, hne, rfl⟩

/-- Nothing follows with a character that the scan stops at. -/
theorem not_follows (hdigit : ¬c.isDigit) (hpoint : ¬(c = '.' ∧ ¬s.sawPoint ∧ ¬s.sawExponent))
    (hmark : ¬((c = 'e' ∨ c = 'E') ∧ ¬s.sawExponent ∧ 0 < s.length)) (hsign : ¬((c = '+' ∨ c = '-') ∧ s.read = 0)) :
    ¬s.Follows (c :: t) := by
  by_cases he : s.sawExponent
  · rw [follows_exponent_iff he, allDigits_cons]
    exact fun h => hdigit h.1.1
  · rw [follows_cons_iff he (by grind)]
    rintro ⟨-, ⟨m, e, hm, -⟩ | ⟨hlen, hexp⟩⟩
    · rcases IsMantissaRest.cons_iff.1 hm with ⟨h, -⟩ | ⟨h, hp, -⟩
      · exact hdigit h
      · exact hpoint ⟨h, hp, he⟩
    · exact hmark ⟨(isExponent_cons_iff.1 hexp).1, he, hlen⟩

end Library.NumeralScan

/-! ### The scan -/

/-- Counting from `read`, `n` is where the longest of certain texts in front of `cs` ends. If there is none, it is
`length`. -/
def Finds (P : List Char → Prop) (read length : Nat) (cs : List Char) (n : Nat) : Prop :=
  n = length ∧ (∀ t, t <+: cs → ¬P t) ∨
    ∃ t, t <+: cs ∧ P t ∧ n = read + t.length ∧ ∀ u, u <+: cs → P u → u.length ≤ t.length

namespace Finds

variable {P Q : List Char → Prop} {read length n : Nat} {c : Char} {cs : List Char}

/-- Only the texts in front of `cs` matter. -/
theorem congr (hPQ : ∀ t, t <+: cs → (P t ↔ Q t)) (h : Finds Q read length cs n) : Finds P read length cs n := by
  rcases h with ⟨rfl, hnone⟩ | ⟨t, ht, hQ, rfl, hlongest⟩
  · exact .inl ⟨rfl, fun t ht hP => hnone t ht ((hPQ t ht).1 hP)⟩
  · exact .inr ⟨t, ht, (hPQ t ht).2 hQ, rfl, fun u hu hP => hlongest u hu ((hPQ u hu).1 hP)⟩

theorem nil (h : ¬P []) : Finds P read length [] length :=
  .inl ⟨rfl, fun t ht => by rwa [List.prefix_nil.1 ht]⟩

/-- The empty text does not count. -/
theorem cons (h : ¬P []) (hrest : Finds (fun t => P (c :: t)) (read + 1) length cs n) : Finds P read length (c :: cs) n := by
  rcases hrest with ⟨rfl, hnone⟩ | ⟨t, ht, hP, rfl, hlongest⟩
  · refine .inl ⟨rfl, fun t ht => ?_⟩
    rcases List.prefix_cons_iff.1 ht with rfl | ⟨t, rfl, ht'⟩
    · exact h
    · exact hnone t ht'
  · refine .inr ⟨c :: t, List.cons_prefix_cons.2 ⟨rfl, ht⟩, hP, by rw [List.length_cons]; omega, fun u hu hPu => ?_⟩
    rcases List.prefix_cons_iff.1 hu with rfl | ⟨u, rfl, hu'⟩
    · exact absurd hPu h
    · exact Nat.succ_le_succ (hlongest u hu' hPu)

/-- The first character is the end of a text, and perhaps there are longer ones. -/
theorem cons_self (h : ¬P []) (hc : P [c]) (hrest : Finds (fun t => t ≠ [] ∧ P (c :: t)) (read + 1) (read + 1) cs n) :
    Finds P read length (c :: cs) n := by
  refine cons h (.inr ?_)
  rcases hrest with ⟨rfl, hnone⟩ | ⟨t, ht, hP, rfl, hlongest⟩
  · refine ⟨[], List.nil_prefix, hc, rfl, fun u hu hPu => ?_⟩
    by_contra hlen
    exact hnone u hu ⟨List.ne_nil_of_length_pos (Nat.lt_of_not_le hlen), hPu⟩
  · refine ⟨t, ht, hP.2, rfl, fun u hu hPu => ?_⟩
    by_cases hnil : u = []
    · rw [hnil]
      exact Nat.zero_le _
    · exact hlongest u hu ⟨hnil, hPu⟩

/-- No text begins with the first character. -/
theorem stop (h : ¬P []) (hc : ∀ t, ¬P (c :: t)) : Finds P read length (c :: cs) length :=
  cons h (.inl ⟨rfl, fun t _ => hc t⟩)

end Finds

namespace Library.NumeralScan

/-- The scan finds the longest text that completes the numeral. -/
theorem finds_scanNumeral (s : NumeralScan) (cs : List Char) (hs : s.read = 0 → ¬s.sawExponent) :
    Finds s.Follows s.read s.length cs (scanNumeral s cs) := by
  fun_induction scanNumeral s cs with
  | case1 s => exact .nil not_follows_nil
  | case2 s c cs hc ih =>
    refine .cons_self not_follows_nil (follows_digit hc |>.2 (.inl rfl)) ((ih nofun).congr fun t _ => ?_)
    refine ⟨fun ⟨hne, h⟩ => ((follows_digit hc).1 h).resolve_left hne, fun h => ⟨?_, (follows_digit hc).2 (.inr h)⟩⟩
    rintro rfl
    exact not_follows_nil h
  | case3 s c cs hc hpoint ih =>
    obtain ⟨rfl, hp, he⟩ := hpoint
    exact .cons not_follows_nil ((ih nofun).congr fun t _ => follows_point (by simpa using hp) (by simpa using he))
  | case4 s c hc hpoint hmark d rest hd ih =>
    obtain ⟨hmark, he, hlen⟩ := hmark
    have he : ¬s.sawExponent := by simpa using he
    have hskip : ¬s.Follows [c] := fun h => hc (EndsInDigit.singleton_iff.1 h.1)
    exact .cons not_follows_nil (.cons hskip ((ih nofun).congr fun t _ => follows_mark_sign hmark he hlen hd))
  | case5 s c hc hpoint hmark d rest hd ih =>
    obtain ⟨hmark, he, hlen⟩ := hmark
    refine .cons not_follows_nil ((ih nofun).congr fun t ht => follows_mark_digits hmark (by simpa using he) hlen ?_)
    rcases List.prefix_cons_iff.1 ht with rfl | ⟨t, rfl, -⟩
    · nofun
    · rintro _ ⟨⟩
      exact hd
  | case6 s c hc hpoint hmark =>
    refine .cons not_follows_nil (.nil fun h => hc (EndsInDigit.singleton_iff.1 h.1))
  | case7 s c cs hc hpoint hmark hsign ih =>
    exact .cons not_follows_nil ((ih nofun).congr fun t _ => follows_sign hsign.1 hsign.2 (hs hsign.2))
  | case8 s c cs hc hpoint hmark hsign =>
    exact .stop not_follows_nil fun t => not_follows hc (by simpa using hpoint) (by simpa using hmark) hsign

end Library.NumeralScan

namespace Library

variable {cs : List Char} {call : NativeCall} {h : Heap}

/-- Scanned from the beginning, a text is read to the end of its longest numeral. -/
theorem scanNumeral_cases (cs : List Char) :
    scanNumeral {} cs = 0 ∧ (∀ t, ¬IsNumeralFront cs t) ∨ ∃ t, IsLongestNumeral cs t ∧ scanNumeral {} cs = t.length := by
  have hfront {t : List Char} : IsNumeralFront cs t ↔ t <+: cs ∧ NumeralScan.Follows {} t := by
    rw [NumeralScan.follows_iff_isNumeral]
    exact ⟨fun ⟨hf, hn, hd⟩ => ⟨hf, hn, hd⟩, fun ⟨hf, hn, hd⟩ => ⟨hf, hn, hd⟩⟩
  rcases NumeralScan.finds_scanNumeral {} cs nofun with ⟨hn, hnone⟩ | ⟨t, ht, hfollows, hn, hlongest⟩
  · exact .inl ⟨hn, fun t ht => hnone t (hfront.1 ht).1 (hfront.1 ht).2⟩
  · refine .inr ⟨t, ⟨hfront.2 ⟨ht, hfollows⟩, fun u hu => hlongest u (hfront.1 hu).1 (hfront.1 hu).2⟩, ?_⟩
    rw [hn]
    exact Nat.zero_add _

/-- The words for infinity, with a sign or without. -/
def infinityWords : List (List Char) := ["Infinity".toList, "+Infinity".toList, "-Infinity".toList]

/-- Unless a text starts with a word for infinity, its number is that of the numeral that the scan finds. -/
theorem leadingNumber_eq (hcs : ∀ word ∈ infinityWords, ¬word <+: cs) : leadingNumber cs =
    if scanNumeral {} cs = 0 then notANumber
    else (readFloat? (String.ofList (cs.take (scanNumeral {} cs)))).getD notANumber := by
  obtain ⟨hplain, hplus, hminus, -⟩ := by
    simpa only [infinityWords, List.forall_mem_cons, ← List.isPrefixOf_iff_prefix] using hcs
  unfold leadingNumber
  rw [if_neg (fun h => h.elim hplain hplus), if_neg hminus]
  split
  · rename_i hn
    rw [if_pos hn]
  · rename_i hn
    rw [if_neg hn]

/-- Unless a text starts with a word for infinity, the length that the scan finds is that of the longest numeral at its
front that ends in a digit, and the number is read from there. The length is zero, and the answer is not a number, exactly
if there is no such numeral. -/
theorem parseFloat_longest (htext : trimBlankChars (h.toText (call.arg 0)).toList = cs)
    (hcs : ∀ word ∈ infinityWords, ¬word <+: cs) :
    (scanNumeral {} cs = 0 ↔ ∀ t, ¬IsNumeralFront cs t) ∧
      (scanNumeral {} cs = 0 → parseFloat call h = .ok (.value (.number notANumber), h)) ∧
      (scanNumeral {} cs ≠ 0 → ∃ t, IsLongestNumeral cs t ∧ t.length = scanNumeral {} cs ∧
        parseFloat call h = .ok (.value (.number ((readFloat? (String.ofList t)).getD notANumber)), h)) := by
  have hrun : parseFloat call h = .ok (.value (.number (leadingNumber cs)), h) := by
    rw [← htext]
    rfl
  rw [hrun, leadingNumber_eq hcs]
  rcases scanNumeral_cases cs with ⟨hn, hnone⟩ | ⟨t, ht, hn⟩
  · exact ⟨iff_of_true hn hnone, fun _ => by rw [if_pos hn], fun h => absurd hn h⟩
  · have hpos : scanNumeral {} cs ≠ 0 := hn ▸ (List.length_pos_of_ne_nil ht.ne_nil).ne'
    refine ⟨iff_of_false hpos fun hnone => hnone t ht.toIsNumeralFront, fun h => absurd h hpos, fun _ => ⟨t, ht, hn.symm, ?_⟩⟩
    rw [if_neg hpos, hn, ← List.prefix_iff_eq_take.1 ht.front]

/-- The point, the mark and the sign behind the digit are read and given back. -/
theorem parseFloat_longest_dangling :
    let call : NativeCall := { this := .undefined, args := [.string " 7.e+x"] }
    trimBlankChars (Heap.empty.toText (call.arg 0)).toList = "7.e+x".toList ∧
      (∀ word ∈ infinityWords, ¬word <+: "7.e+x".toList) ∧ scanNumeral {} "7.e+x".toList = 1 ∧
      IsLongestNumeral "7.e+x".toList ['7'] ∧ parseFloat call .empty = .ok (.value (.number 7), .empty) := by
  intro call
  have htext : trimBlankChars (Heap.empty.toText (call.arg 0)).toList = "7.e+x".toList := by decide
  have hcs : ∀ word ∈ infinityWords, ¬word <+: "7.e+x".toList := by decide
  have hn : scanNumeral {} "7.e+x".toList = 1 := by decide
  obtain ⟨-, -, hfound⟩ := parseFloat_longest htext hcs
  obtain ⟨t, ht, hlen, hrun⟩ := hfound (hn ▸ Nat.one_ne_zero)
  have ht' : t = ['7'] := by
    rw [List.prefix_iff_eq_take.1 ht.front, hlen, hn]
    rfl
  have hseven : readFloat? (String.ofList ['7']) = some 7 := by decide +kernel
  rw [ht', hseven] at hrun
  exact ⟨htext, hcs, hn, ht' ▸ ht, hrun⟩

end Library

end Stepwise
