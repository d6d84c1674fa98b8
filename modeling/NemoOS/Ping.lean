import NemoOS.Fat32
import NemoOS.Icmp
import NemoOS.Vfs

/-!
# The ping command

The branch of `execute` in `shell/shell.cpp` that reads an address and sends an echo request
to it. The loop runs over digits and dots and stops at any other character or at a fifth dot;
after it only the number of dots and the last number are looked at. So every dotted quad is
accepted and read right, but groups may be empty, the first three numbers are cut to a byte,
and what follows the last digit is ignored (`ping_accepts_iff`).

`val` is a signed 32-bit number that wraps around.
-/

namespace NemoOS

/-! ## The command -/

def isDigit (c : UInt8) : Bool := 48 ≤ c && c ≤ 57

/-- The variables of the loop. -/
structure PingParse where
  ip : Ip
  val : UInt32
  oct : Nat

def pingLoop : CString → PingParse → PingParse
  | [], s => s
  | c :: rest, s =>
      if isDigit c then pingLoop rest { s with val := s.val * 10 + UInt32.ofNat (c.toNat - 48) }
      else if h : c = DOT ∧ s.oct < 4 then
        pingLoop rest ⟨Function.update s.ip ⟨s.oct, h.2⟩ s.val.toUInt8, 0, s.oct + 1⟩
      else s

/-- The address that is used; `none` if the usage is printed. -/
def pingTarget (arg : CString) : Option Ip :=
  let s := pingLoop arg ⟨fun _ => 0, 0, 0⟩
  if s.oct = 3 ∧ toInt32 s.val ≤ 255 then some (Function.update s.ip 3 s.val.toUInt8) else none

/-- The frames that are sent. -/
def Station.ping (st : Station) (arg : CString) : List Sent × Station :=
  match pingTarget arg with
  | none => ([], st)
  | some ip =>
      let (_, sent, st') := st.icmpSendEcho ip 1 1
      ((st.arpSendRequest ip).map .arp ++ sent, st')

/-! ## Dotted quads -/

/-- The number that digits stand for. -/
def decimal (ds : List UInt8) : Nat := ds.foldl (fun v c => v * 10 + (c.toNat - 48)) 0

/-- The address with four numbers. -/
def quad (a b c d : List UInt8) : Ip := fun i => UInt8.ofNat (decimal ([a, b, c, d].getD i []))

structure IsOctet (ds : List UInt8) : Prop where
  ne_nil : ds ≠ []
  digits : ∀ c ∈ ds, isDigit c = true
  le : decimal ds ≤ 255

/-- The address of four numbers, none of them empty or over 255, with a dot between each two
    and nothing else. -/
def DottedQuad (arg : CString) (ip : Ip) : Prop :=
  ∃ a b c d, arg = a ++ DOT :: (b ++ DOT :: (c ++ DOT :: d)) ∧
    (IsOctet a ∧ IsOctet b ∧ IsOctet c ∧ IsOctet d) ∧ ip = quad a b c d

/-! ## The loop -/

/-- Neither a digit nor a dot comes next. -/
def Stops (rest : CString) : Prop := ∀ c, rest.head? = some c → isDigit c = false ∧ c ≠ DOT

variable {ds rest : CString}

/-- One more digit, in 32 bits. -/
theorem ofNat_digit (v : Nat) (c : UInt8) :
    UInt32.ofNat v * 10 + UInt32.ofNat (c.toNat - 48) = UInt32.ofNat (v * 10 + (c.toNat - 48)) := by
  simp [UInt32.ofNat_add, UInt32.ofNat_mul]

theorem pingLoop_digits (hdigits : ∀ c ∈ ds, isDigit c = true) (rest : CString) (s : PingParse)
    (v : Nat) (hval : s.val = UInt32.ofNat v) :
    pingLoop (ds ++ rest) s = pingLoop rest
      { s with val := UInt32.ofNat (ds.foldl (fun v c => v * 10 + (c.toNat - 48)) v) } := by
  induction ds generalizing s v with
  | nil => rw [List.nil_append, List.foldl_nil, ← hval]
  | cons c ds ih =>
      have hc := hdigits c List.mem_cons_self
      rw [List.cons_append, pingLoop, if_pos hc, List.foldl_cons]
      apply ih (fun c hc => hdigits c (List.mem_cons_of_mem _ hc))
      rw [hval, ofNat_digit]

/-- A group of digits. -/
theorem pingLoop_group (hdigits : ∀ c ∈ ds, isDigit c = true) (rest : CString) (ip : Ip)
    (oct : Nat) :
    pingLoop (ds ++ rest) ⟨ip, 0, oct⟩ = pingLoop rest ⟨ip, UInt32.ofNat (decimal ds), oct⟩ :=
  pingLoop_digits hdigits rest _ 0 rfl

theorem pingLoop_dot (rest : CString) (s : PingParse) (h : s.oct < 4) :
    pingLoop (DOT :: rest) s =
      pingLoop rest ⟨Function.update s.ip ⟨s.oct, h⟩ s.val.toUInt8, 0, s.oct + 1⟩ := by
  rw [pingLoop, if_neg (by decide), dif_pos ⟨rfl, h⟩]

theorem pingLoop_stops (h : Stops rest) (s : PingParse) : pingLoop rest s = s := by
  rcases rest with _ | ⟨c, rest⟩
  · rfl
  · obtain ⟨hdigit, hdot⟩ := h c rfl
    rw [pingLoop, if_neg (by simp [hdigit]), dif_neg (fun h => hdot h.1)]

/-- Every dot is counted, up to four. -/
theorem pingLoop_oct {lead : CString} (hlead : ∀ c ∈ lead, isDigit c = true ∨ c = DOT)
    (h : Stops rest) (s : PingParse) (hoct : s.oct ≤ 4) :
    (pingLoop (lead ++ rest) s).oct = min (s.oct + lead.count DOT) 4 := by
  induction lead generalizing s with
  | nil =>
      rw [List.nil_append, pingLoop_stops h, List.count_nil]
      omega
  | cons c lead ih =>
      have hlead' : ∀ c ∈ lead, isDigit c = true ∨ c = DOT := fun c hc =>
        hlead c (List.mem_cons_of_mem _ hc)
      rw [List.cons_append]
      rcases hlead c List.mem_cons_self with hdigit | rfl
      · have hne : c ≠ DOT := by
          rintro rfl
          exact absurd hdigit (by decide)
        rw [pingLoop, if_pos hdigit, List.count_cons_of_ne hne]
        exact ih hlead' _ hoct
      · rw [List.count_cons_self]
        by_cases hroom : s.oct < 4
        · have hnext := ih hlead' ⟨Function.update s.ip ⟨s.oct, hroom⟩ s.val.toUInt8, 0, s.oct + 1⟩
            hroom
          rw [pingLoop_dot _ _ hroom, hnext]
          dsimp only
          omega
        · rw [pingLoop, if_neg (by decide), dif_neg (fun h => hroom h.2)]
          omega

/-! ## What is accepted -/

/-- How the loop reads an argument with three dots. -/
structure Reads (arg a b c d rest : CString) : Prop where
  split : arg = a ++ DOT :: (b ++ DOT :: (c ++ DOT :: (d ++ rest)))
  digits_a : ∀ x ∈ a, isDigit x = true
  digits_b : ∀ x ∈ b, isDigit x = true
  digits_c : ∀ x ∈ c, isDigit x = true
  digits_d : ∀ x ∈ d, isDigit x = true
  stops : Stops rest

variable {arg a b c d : CString}

theorem update_quad (ip : Ip) (a b c d : List UInt8) :
    Function.update (Function.update (Function.update (Function.update ip
      0 (UInt32.ofNat (decimal a)).toUInt8) 1 (UInt32.ofNat (decimal b)).toUInt8)
      2 (UInt32.ofNat (decimal c)).toUInt8) 3 (UInt32.ofNat (decimal d)).toUInt8 =
      quad a b c d := by
  funext i
  fin_cases i <;> simp [quad, Function.update]

theorem Reads.pingTarget_eq (h : Reads arg a b c d rest) :
    pingTarget arg =
      if toInt32 (UInt32.ofNat (decimal d)) ≤ 255 then some (quad a b c d) else none := by
  have hloop : pingLoop arg ⟨fun _ => 0, 0, 0⟩ =
      ⟨Function.update (Function.update (Function.update (fun _ => 0)
        0 (UInt32.ofNat (decimal a)).toUInt8) 1 (UInt32.ofNat (decimal b)).toUInt8)
        2 (UInt32.ofNat (decimal c)).toUInt8, UInt32.ofNat (decimal d), 3⟩ := by
    rw [h.split, pingLoop_group h.digits_a, pingLoop_dot _ _ (by dsimp only; omega),
      pingLoop_group h.digits_b, pingLoop_dot _ _ (by dsimp only; omega),
      pingLoop_group h.digits_c, pingLoop_dot _ _ (by dsimp only; omega),
      pingLoop_group h.digits_d, pingLoop_stops h.stops]
    rfl
  rw [pingTarget, hloop]
  dsimp only
  rw [update_quad]
  exact if_congr (and_iff_right rfl) rfl rfl

/-- The first of several dots. -/
theorem exists_split_dot {l : CString} {n : Nat} (h : l.count DOT = n + 1) :
    ∃ ds rest, l = ds ++ DOT :: rest ∧ DOT ∉ ds ∧ rest.count DOT = n := by
  have hmem : DOT ∈ l := List.count_pos_iff.mp (by omega)
  obtain ⟨ds, rest, rfl, hds⟩ := List.eq_append_cons_of_mem hmem
  rw [List.count_append, List.count_eq_zero_of_not_mem hds, List.count_cons_self] at h
  exact ⟨ds, rest, rfl, hds, by omega⟩

theorem reads_of_oct (h : (pingLoop arg ⟨fun _ => 0, 0, 0⟩).oct = 3) :
    ∃ a b c d rest, Reads arg a b c d rest := by
  -- the longest beginning of digits and dots
  have harg := List.takeWhile_append_dropWhile (p := fun c => isDigit c || c = DOT) (l := arg)
  have hlead : ∀ c ∈ arg.takeWhile (fun c => isDigit c || c = DOT), isDigit c = true ∨ c = DOT := by
    intro c hc
    simpa using List.mem_takeWhile_imp hc
  have hstops : Stops (arg.dropWhile fun c => isDigit c || c = DOT) := by
    intro c hc
    have hnot := List.head?_dropWhile_not (fun c => isDigit c || c = DOT) arg
    rw [hc] at hnot
    simpa using hnot
  generalize arg.takeWhile (fun c => isDigit c || c = DOT) = lead at harg hlead
  generalize arg.dropWhile (fun c => isDigit c || c = DOT) = rest at harg hstops
  have hcount : lead.count DOT = 3 := by
    have hoct := pingLoop_oct hlead hstops ⟨fun _ => 0, 0, 0⟩ (by decide)
    rw [harg, h] at hoct
    dsimp only at hoct
    omega
  obtain ⟨a, lead₁, rfl, ha, hcount₁⟩ := exists_split_dot hcount
  obtain ⟨b, lead₂, rfl, hb, hcount₂⟩ := exists_split_dot hcount₁
  obtain ⟨c, d, rfl, hc, hcount₃⟩ := exists_split_dot hcount₂
  have hd : DOT ∉ d := List.count_eq_zero.mp hcount₃
  have hdigits : ∀ ds : CString, DOT ∉ ds →
      (∀ x ∈ ds, x ∈ a ++ DOT :: (b ++ DOT :: (c ++ DOT :: d))) → ∀ x ∈ ds, isDigit x = true := by
    intro ds hds hsub x hx
    exact (hlead x (hsub x hx)).resolve_right fun heq => hds (heq ▸ hx)
  refine ⟨a, b, c, d, rest, by simpa using harg.symm, hdigits a ha ?_, hdigits b hb ?_,
    hdigits c hc ?_, hdigits d hd ?_, hstops⟩
  all_goals
    intro x hx
    simp [hx]

theorem pingTarget_eq_some_iff (ip : Ip) :
    pingTarget arg = some ip ↔
      ∃ a b c d rest, Reads arg a b c d rest ∧ toInt32 (UInt32.ofNat (decimal d)) ≤ 255 ∧
        ip = quad a b c d := by
  constructor
  · intro h
    have hoct : (pingLoop arg ⟨fun _ => 0, 0, 0⟩).oct = 3 := by
      rw [pingTarget] at h
      split_ifs at h with haccept
      exact haccept.1
    obtain ⟨a, b, c, d, rest, hreads⟩ := reads_of_oct hoct
    rw [hreads.pingTarget_eq] at h
    split_ifs at h with hle
    exact ⟨a, b, c, d, rest, hreads, hle, (Option.some.inj h).symm⟩
  · rintro ⟨a, b, c, d, rest, hreads, hle, rfl⟩
    rw [hreads.pingTarget_eq, if_pos hle]

theorem not_mem_of_digits (hdigits : ∀ x ∈ ds, isDigit x = true) : DOT ∉ ds :=
  fun hmem => absurd (hdigits DOT hmem) (by decide)

/-- Digits in front of a dot. -/
theorem split_dot_inj {ds ds' rest rest' : CString} (hds : ∀ x ∈ ds, isDigit x = true)
    (hds' : ∀ x ∈ ds', isDigit x = true) (h : ds ++ DOT :: rest = ds' ++ DOT :: rest') :
    ds = ds' ∧ rest = rest' := by
  induction ds generalizing ds' with
  | nil =>
      cases ds' with
      | nil => exact ⟨rfl, (List.cons.inj h).2⟩
      | cons c ds' =>
          obtain ⟨rfl, -⟩ := List.cons.inj h
          exact absurd List.mem_cons_self (not_mem_of_digits hds')
  | cons c ds ih =>
      cases ds' with
      | nil =>
          obtain ⟨rfl, -⟩ := List.cons.inj h
          exact absurd List.mem_cons_self (not_mem_of_digits hds)
      | cons c' ds' =>
          obtain ⟨rfl, htail⟩ := List.cons.inj h
          obtain ⟨rfl, rfl⟩ := ih (fun x hx => hds x (List.mem_cons_of_mem _ hx))
            (fun x hx => hds' x (List.mem_cons_of_mem _ hx)) htail
          exact ⟨rfl, rfl⟩

/-- There is one way to read an argument up to the last number. -/
theorem Reads.unique {a' b' c' d' rest' : CString} (h : Reads arg a b c d rest)
    (h' : Reads arg a' b' c' d' rest') :
    a = a' ∧ b = b' ∧ c = c' ∧ d ++ rest = d' ++ rest' := by
  have heq := h.split.symm.trans h'.split
  obtain ⟨ha, hbcd⟩ := split_dot_inj h.digits_a h'.digits_a heq
  obtain ⟨hb, hcd⟩ := split_dot_inj h.digits_b h'.digits_b hbcd
  obtain ⟨hc, hd⟩ := split_dot_inj h.digits_c h'.digits_c hcd
  exact ⟨ha, hb, hc, hd⟩

/-- Behind digits nothing stops but the end. -/
theorem Stops.eq_nil (h : Stops rest) {d' : CString} (hdigits : ∀ x ∈ d', isDigit x = true)
    (heq : d ++ rest = d') : rest = [] := by
  rcases rest with _ | ⟨x, rest⟩
  · rfl
  · have hdigit := hdigits x (by rw [← heq]; simp)
    rw [(h x rfl).1] at hdigit
    cases hdigit

theorem toInt32_ofNat {n : Nat} (h : n ≤ 255) : toInt32 (UInt32.ofNat n) ≤ 255 := by
  have hn : (UInt32.ofNat n).toNat = n := by
    rw [UInt32.toNat_ofNat']
    omega
  rw [toInt32, hn, if_pos (by omega)]
  omega

/-- A dotted quad is read as one. -/
theorem Reads.of_quad (hsplit : arg = a ++ DOT :: (b ++ DOT :: (c ++ DOT :: d))) (ha : IsOctet a)
    (hb : IsOctet b) (hc : IsOctet c) (hd : IsOctet d) : Reads arg a b c d [] where
  split := by rw [List.append_nil, hsplit]
  digits_a := ha.digits
  digits_b := hb.digits
  digits_c := hc.digits
  digits_d := hd.digits
  stops _ h := by cases h

/-- Every dotted quad is accepted and read right. -/
theorem DottedQuad.pingTarget_eq {ip : Ip} (h : DottedQuad arg ip) : pingTarget arg = some ip := by
  obtain ⟨a, b, c, d, hsplit, ⟨ha, hb, hc, hd⟩, rfl⟩ := h
  rw [(Reads.of_quad hsplit ha hb hc hd).pingTarget_eq, if_pos (toInt32_ofNat hd.le)]

/-- The four numbers of a dotted quad are those that the loop reads. -/
theorem DottedQuad.octets {ip : Ip} (h : DottedQuad arg ip) (hreads : Reads arg a b c d rest) :
    rest = [] ∧ IsOctet a ∧ IsOctet b ∧ IsOctet c ∧ IsOctet d := by
  obtain ⟨a', b', c', d', hsplit, ⟨ha, hb, hc, hd⟩, -⟩ := h
  obtain ⟨rfl, rfl, rfl, hlast⟩ := hreads.unique (Reads.of_quad hsplit ha hb hc hd)
  rw [List.append_nil] at hlast
  obtain rfl := hreads.stops.eq_nil hd.digits hlast
  rw [List.append_nil] at hlast
  exact ⟨rfl, ha, hb, hc, hlast ▸ hd⟩

/-- **What `ping` accepts.** For an argument, the address that is used is that of the dotted
    quad it is, and none is used if it is not one, exactly if it passes the two tests of the
    command only as four numbers that are not empty and at most 255, with nothing behind. -/
theorem ping_accepts_iff (arg : CString) :
    (∀ ip, pingTarget arg = some ip ↔ DottedQuad arg ip) ↔
      ∀ a b c d rest, Reads arg a b c d rest → toInt32 (UInt32.ofNat (decimal d)) ≤ 255 →
        rest = [] ∧ IsOctet a ∧ IsOctet b ∧ IsOctet c ∧ IsOctet d := by
  constructor
  · intro h a b c d rest hreads hle
    have htarget := (pingTarget_eq_some_iff _).mpr ⟨a, b, c, d, rest, hreads, hle, rfl⟩
    exact ((h _).mp htarget).octets hreads
  · intro h ip
    refine ⟨fun htarget => ?_, DottedQuad.pingTarget_eq⟩
    obtain ⟨a, b, c, d, rest, hreads, hle, rfl⟩ := (pingTarget_eq_some_iff _).mp htarget
    obtain ⟨rfl, hoctets⟩ := h a b c d rest hreads hle
    exact ⟨a, b, c, d, by rw [hreads.split, List.append_nil], hoctets, rfl⟩

instance (rest : CString) : Decidable (Stops rest) :=
  match rest with
  | [] => isTrue fun _ h => by cases h
  | c :: _ => decidable_of_iff (isDigit c = false ∧ c ≠ DOT)
      ⟨fun h _ hc => Option.some.inj hc ▸ h, fun h => h c rfl⟩

/-- `300.1.1.1`, an address whose first number is cut to a byte. -/
def largeOctet : CString := [51, 48, 48, 46, 49, 46, 49, 46, 49]

/-- `...`, without a number. -/
def noOctets : CString := [46, 46, 46]

/-- `1.2.3.4x`. -/
def trailingText : CString := [49, 46, 50, 46, 51, 46, 52, 120]

/-- The digits of all groups in one test. -/
theorem Reads.of_all (hsplit : arg = a ++ DOT :: (b ++ DOT :: (c ++ DOT :: (d ++ rest))))
    (hdigits : (a ++ (b ++ (c ++ d))).all isDigit = true) (hstops : Stops rest) :
    Reads arg a b c d rest := by
  simp only [List.all_append, Bool.and_eq_true, List.all_eq_true] at hdigits
  obtain ⟨ha, hb, hc, hd⟩ := hdigits
  exact ⟨hsplit, ha, hb, hc, hd, hstops⟩

theorem largeOctet_reads : Reads largeOctet [51, 48, 48] [49] [49] [49] [] :=
  .of_all rfl (by decide) (by decide)

theorem noOctets_reads : Reads noOctets [] [] [] [] [] :=
  .of_all rfl (by decide) (by decide)

theorem trailingText_reads : Reads trailingText [49] [50] [51] [52] [120] :=
  .of_all rfl (by decide) (by decide)

/-- Three arguments that are not dotted quads are accepted. -/
theorem ping_accepts_others :
    (pingTarget largeOctet = some (quad [52, 52] [49] [49] [49]) ∧
        ∀ ip, ¬ DottedQuad largeOctet ip) ∧
      (pingTarget noOctets = some (fun _ => 0) ∧ ∀ ip, ¬ DottedQuad noOctets ip) ∧
      pingTarget trailingText = some (quad [49] [50] [51] [52]) ∧
      ∀ ip, ¬ DottedQuad trailingText ip := by
  refine ⟨⟨by decide, fun ip h => ?_⟩, ⟨by decide, fun ip h => ?_⟩, by decide, fun ip h => ?_⟩
  · exact absurd (h.octets largeOctet_reads).2.1.le (by decide)
  · exact (h.octets noOctets_reads).2.1.ne_nil rfl
  · exact absurd (h.octets trailingText_reads).1 (by decide)

/-! ## What is sent -/

end NemoOS
