import OpCatalog.Discovery.Classification

/-!
# From parameter flags to argument flags

A parameter has nine flags with a name and an argument has four, at places of their own. What a
set of parameter flags is mapped to depends on four of its bits, each of which gives one bit of the
result. The bits of a set are looked at one by one, since the named flags are single bits.
-/
namespace OpCatalog

/-! ## Single bits -/

/-- The place of the flag's bit, counted from the lowest. -/
def ParamFlag.place (f : ParamFlag) : Nat := all.idxOf f

theorem ParamFlag.toNat_bits_flag (f : ParamFlag) : f.flag.bits.toNat = 1 <<< f.place := by
  cases f <;> decide

namespace ParamFlags

variable {flags : ParamFlags} {names : List ParamFlag} {f : ParamFlag}

/-- A named flag is contained if its bit is set. -/
theorem contains_flag (flags : ParamFlags) (f : ParamFlag) :
    flags.contains f.flag = flags.bits.toNat.testBit f.place := by
  rw [contains, Bool.eq_iff_iff, beq_iff_eq, ← UInt32.toNat_inj, UInt32.toNat_and,
    f.toNat_bits_flag, Nat.one_shiftLeft]
  constructor
  · intro h
    have hplace := congrArg (Nat.testBit · f.place) h
    simpa [Nat.testBit_two_pow] using hplace
  · intro h
    apply Nat.eq_of_testBit_eq
    intro i
    rw [Nat.testBit_and, Nat.testBit_two_pow]
    by_cases hi : f.place = i
    · subst hi
      simp [h]
    · simp [hi]

theorem contains_union (a b : ParamFlags) (f : ParamFlag) :
    (a ∪ b).contains f.flag = (a.contains f.flag || b.contains f.flag) := by
  simp only [contains_flag, bits_union, UInt32.toNat_or, Nat.testBit_or]

/-- No two names share a bit. -/
theorem contains_flag_flag (f g : ParamFlag) : f.flag.contains g.flag = decide (f = g) := by
  cases f <;> cases g <;> decide

/-! ## The flags of a list of names -/

theorem union_assoc (a b c : ParamFlags) : (a ∪ b) ∪ c = a ∪ (b ∪ c) :=
  congrArg ParamFlags.mk (UInt32.or_assoc a.bits b.bits c.bits)

theorem none_union (a : ParamFlags) : none ∪ a = a := congrArg ParamFlags.mk UInt32.zero_or

theorem foldl_eq_union (names : List ParamFlag) (start : ParamFlags) :
    names.foldl (fun flags name => flags ∪ name.flag) start = start ∪ ofNames names := by
  induction names generalizing start with
  | nil => exact congrArg ParamFlags.mk UInt32.or_zero.symm
  | cons name names ih =>
    rw [ofNames, List.foldl_cons, List.foldl_cons, ih, ih (none ∪ name.flag), none_union,
      union_assoc]

theorem ofNames_cons (name : ParamFlag) (names : List ParamFlag) :
    ofNames (name :: names) = name.flag ∪ ofNames names := by
  rw [ofNames, List.foldl_cons, foldl_eq_union, none_union]

theorem ofNames_append (xs ys : List ParamFlag) :
    ofNames (xs ++ ys) = ofNames xs ∪ ofNames ys := by
  rw [ofNames, List.foldl_append, foldl_eq_union]
  rfl

/-- A flag is set if it is named, however often and wherever. -/
theorem contains_ofNames_iff : (ofNames names).contains f.flag ↔ f ∈ names := by
  induction names with
  | nil => cases f <;> decide
  | cons name names ih =>
    rw [ofNames_cons, contains_union, contains_flag_flag, Bool.or_eq_true, ih, decide_eq_true_iff,
      List.mem_cons, eq_comm]

/-! ## Counterparts -/

/-- The counterpart of a flag, if the flag is set. -/
def carry (flags : ParamFlags) (given : ParamFlag) (carried : ArgumentFlags) : UInt32 :=
  if flags.contains given.flag then carried.bits else 0

theorem carry_union (a b : ParamFlags) (given : ParamFlag) (carried : ArgumentFlags) :
    (a ∪ b).carry given carried = a.carry given carried ||| b.carry given carried := by
  simp only [carry, contains_union]
  cases a.contains given.flag <;> cases b.contains given.flag <;> simp

/-- One round of the mapping. -/
theorem ite_union_eq (flags : ParamFlags) (given : ParamFlag) (out carried : ArgumentFlags) :
    (if flags.contains given.flag then out ∪ carried else out) =
      ⟨out.bits ||| flags.carry given carried⟩ := by
  rw [carry]
  split
  · rfl
  · rw [UInt32.or_zero]

theorem toArgumentFlags_eq (flags : ParamFlags) :
    flags.toArgumentFlags =
      ⟨flags.carry .input .input ||| flags.carry .output .output |||
        flags.carry .required .required ||| flags.carry .modify .modify⟩ := by
  simp only [toArgumentFlags, counterparts, List.foldl_cons, List.foldl_nil, ite_union_eq,
    ArgumentFlags.none, UInt32.zero_or]

/-- Each of the four flags is mapped to its counterpart, and there is nothing else in the result. -/
theorem contains_toArgumentFlags (flags : ParamFlags) :
    flags.toArgumentFlags.contains .input = flags.contains ParamFlag.input.flag ∧
      flags.toArgumentFlags.contains .output = flags.contains ParamFlag.output.flag ∧
      flags.toArgumentFlags.contains .required = flags.contains ParamFlag.required.flag ∧
      flags.toArgumentFlags.contains .modify = flags.contains ParamFlag.modify.flag ∧
      ArgumentFlags.ofBits flags.toArgumentFlags.bits = flags.toArgumentFlags := by
  simp only [toArgumentFlags_eq, carry]
  -- Nothing but the four answers matters any more, and all of these can be tried.
  generalize flags.contains ParamFlag.input.flag = input
  generalize flags.contains ParamFlag.output.flag = output
  generalize flags.contains ParamFlag.required.flag = required
  generalize flags.contains ParamFlag.modify.flag = modify
  revert input output required modify
  decide

theorem toArgumentFlags_union (a b : ParamFlags) :
    (a ∪ b).toArgumentFlags = a.toArgumentFlags ∪ b.toArgumentFlags := by
  simp only [toArgumentFlags_eq, carry_union]
  apply congrArg ArgumentFlags.mk
  dsimp only
  ac_rfl

/-- The parameter flags that have a counterpart. -/
def mapped : ParamFlags := ofNames [.input, .output, .required, .modify]

/-- What has no counterpart does not matter. -/
theorem contains_and_mapped (flags : ParamFlags) (h : mapped.contains f.flag) :
    contains ⟨flags.bits &&& mapped.bits⟩ f.flag = flags.contains f.flag := by
  rw [contains_flag] at h
  rw [contains_flag, contains_flag, UInt32.toNat_and, Nat.testBit_and, h, Bool.and_true]

theorem toArgumentFlags_and_mapped (flags : ParamFlags) :
    toArgumentFlags ⟨flags.bits &&& mapped.bits⟩ = flags.toArgumentFlags := by
  have hinput := flags.contains_and_mapped (f := .input) (by decide)
  have houtput := flags.contains_and_mapped (f := .output) (by decide)
  have hrequired := flags.contains_and_mapped (f := .required) (by decide)
  have hmodify := flags.contains_and_mapped (f := .modify) (by decide)
  simp only [toArgumentFlags_eq, carry, hinput, houtput, hrequired, hmodify]

/-- Of a list of names, those of the four mapped flags each set one bit of the result, and no other
bit is set. Lists that are appended give the union of their flags, the mapping takes a union to the
union of what its parts are mapped to, and bits that are not mapped have no part in it. -/
theorem toArgumentFlags_bitwise :
    (∀ names : List ParamFlag,
      ((ofNames names).toArgumentFlags.contains .input ↔ .input ∈ names) ∧
      ((ofNames names).toArgumentFlags.contains .output ↔ .output ∈ names) ∧
      ((ofNames names).toArgumentFlags.contains .required ↔ .required ∈ names) ∧
      ((ofNames names).toArgumentFlags.contains .modify ↔ .modify ∈ names) ∧
      ArgumentFlags.ofBits (ofNames names).toArgumentFlags.bits =
        (ofNames names).toArgumentFlags) ∧
    (∀ xs ys : List ParamFlag, ofNames (xs ++ ys) = ofNames xs ∪ ofNames ys) ∧
    (∀ a b : ParamFlags, (a ∪ b).toArgumentFlags = a.toArgumentFlags ∪ b.toArgumentFlags) ∧
    ∀ flags : ParamFlags,
      toArgumentFlags ⟨flags.bits &&& mapped.bits⟩ = flags.toArgumentFlags := by
  refine ⟨?_, ofNames_append, toArgumentFlags_union, toArgumentFlags_and_mapped⟩
  intro names
  obtain ⟨hinput, houtput, hrequired, hmodify, hbits⟩ := (ofNames names).contains_toArgumentFlags
  rw [hinput, houtput, hrequired, hmodify]
  exact ⟨contains_ofNames_iff, contains_ofNames_iff, contains_ofNames_iff, contains_ofNames_iff,
    hbits⟩

/-- Names may repeat, and those without a counterpart leave nothing behind. -/
example : (ofNames [.modify, .deprecated, .input, .modify]).toArgumentFlags.text =
    "input|modify" := by decide

end ParamFlags

end OpCatalog
