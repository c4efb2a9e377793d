import V86.Ir.Hir

/-!
# Helper contracts and x87 forms

The part of `ir/helper.rs`, `ir/helper/cpu_registry.rs` and `ir/x87.rs` that the verifier consults:
whether a helper's descriptor is consistent with the registry of CPU helpers, and how many words an
x87 operation loads or stores.
-/

namespace V86.Ir

open Exec

/-- `Effects::conservative`. -/
def Effects.conservative : Effects where
  readsState := 2 ^ 64 - 1
  writesState := 2 ^ 64 - 1
  readsMemory := true
  writesMemory := true
  mayFault := true
  mayTransfer := true
  mayYield := true
  changesTranslation := true
  invalidatesCode := true
  io := true

namespace CpuRegistry

/-- The registered names by their number of parameters. -/
def names : List (Nat × List String) :=
  [(0, [
    "ir_sti_check", "ir_cli_check", "ir_fwait", "ir_cli", "ir_clts", "ir_cpuid",
    "ir_cpuid_continue", "ir_far_control_ud", "ir_flags_stack_check", "ir_hlt", "ir_rdmsr",
    "ir_rdtsc", "ir_rdtsc_continue", "ir_sysenter", "ir_sysexit", "ir_wbinvd", "ir_wrmsr"]),
   (1, [
    "ir_sti_finish_continue", "ir_iret", "ir_verr_mem", "ir_verr_reg", "ir_verw_mem",
    "ir_verw_reg"]),
   (2, [
    "ir_arpl_reg", "ir_rdrand", "ir_descriptor_ud", "ir_far_return", "ir_fxrstor", "ir_fxsave",
    "ir_in", "ir_in_continue", "ir_invlpg", "ir_io_check", "ir_mov_segment_continue", "ir_ldmxcsr",
    "ir_lgdt", "ir_lidt", "ir_lldt_mem", "ir_lldt_reg", "ir_lmsw_mem", "ir_lmsw_reg", "ir_ltr_mem",
    "ir_ltr_reg", "ir_pop_flags", "ir_rdtscp", "ir_read_cr", "ir_read_cr_continue", "ir_read_dr",
    "ir_read_dr_continue", "ir_sgdt", "ir_sidt", "ir_sldt_mem", "ir_sldt_reg", "ir_smsw_mem",
    "ir_smsw_reg", "ir_software_interrupt", "ir_stmxcsr", "ir_str_mem", "ir_str_reg",
    "ir_write_cr", "ir_write_dr", "ir_xgetbv_xsetbv", "ir_xrstor", "ir_xrstors", "ir_xsave",
    "ir_xsavec", "ir_xsaveopt", "ir_xsaves", "ir_bmi_reg_continue"]),
   (3, [
    "ir_invalid_form", "ir_arpl_mem", "ir_movnti", "ir_far_jump_mem", "ir_lar_mem", "ir_lar_reg",
    "ir_lsl_mem", "ir_lsl_reg", "ir_out", "ir_out_continue", "ir_pop_segment", "ir_ins_once",
    "ir_outs_once", "ir_crc32_reg_continue"]),
   (4, [
    "ir_reserved_form", "ir_mmx_mask", "ir_mmx_reg", "ir_mmx_reg_continue", "ir_mmx_xmm_continue",
    "ir_sse_fp_reg_continue", "ir_sse_fp_reg", "ir_far_jump", "ir_ins", "ir_outs",
    "ir_x87_reg_continue", "ir_x87_reg", "ir_crc32_mem_continue", "ir_bmi_mem_continue",
    "ir_avx_continue"]),
   (5, [
    "ir_mmx_mem", "ir_sse_fp_mem_continue", "ir_sse_fp_mem", "ir_load_segment", "ir_rep_cmps",
    "ir_rep_ins", "ir_rep_lods", "ir_rep_movs", "ir_rep_outs", "ir_rep_scas", "ir_rep_stos",
    "ir_x87_mem", "ir_avx_fp_reg_continue"])]

/-- `cpu_registry::arity`. -/
def arity (name : String) : Option Nat := (names.find? fun p => p.2.contains name).map (·.1)

/-- `cpu_registry::checked_scalar_continuation`. -/
def checkedScalarContinuation (name : String) : Bool :=
  ["ir_in_continue", "ir_out_continue", "ir_rdtsc_continue"].contains name

/-- `cpu_registry::scalar_reload`. -/
def scalarReload (name : String) : Bool :=
  checkedScalarContinuation name ||
    ["ir_x87_reg_continue", "ir_mmx_reg_continue", "ir_crc32_reg_continue", "ir_bmi_reg_continue",
      "ir_read_cr_continue", "ir_read_dr_continue", "ir_cpuid_continue"].contains name

/-- `cpu_registry::reload_types`. -/
def reloadTypes (name : String) : List Ty :=
  if scalarReload name then List.replicate 14 .i32
  else List.replicate 14 .i32 ++ List.replicate 8 .v128

/-- `cpu_registry::abi`. -/
def abi (name : String) : HelperAbi :=
  if scalarReload name ||
      ["ir_mmx_xmm_continue", "ir_sse_fp_reg_continue", "ir_sse_fp_mem_continue",
        "ir_crc32_mem_continue", "ir_bmi_mem_continue", "ir_avx_continue",
        "ir_avx_fp_reg_continue"].contains name then
    .cpuReload
  else if "ir_rep_".toList.isPrefixOf name.toList then .cpuRep
  else if ["ir_sti_finish_continue", "ir_sti_check", "ir_cli_check", "ir_flags_stack_check",
      "ir_io_check", "ir_mov_segment_continue"].contains name then
    .outcome none true
  else .cpuExit

/-- The types a CPU helper may take. -/
def parameterType (ty : Ty) : Bool :=
  [Ty.i1, .i8, .i16, .i32, .effectiveAddress, .linearAddress, .ramAddress].contains ty

/-- `cpu_registry::validate`. -/
def validate (d : HelperDescriptor) : Exec Unit :=
  match arity d.name with
  | none => .ok ()
  | some count => do
    let results := if abi d.name = .cpuReload then reloadTypes d.name else []
    require (d.params.length = count && d.results = results && d.params.all parameterType)
      "CPU call helper signature mismatch"
    -- an outcome helper of the registry has no fault delivery and preserves state on Normal
    require (abi d.name = d.abi && d.exceptionOwner = .helper && d.effects = .conservative)
      "CPU call helper observation/outcome contract mismatch"

end CpuRegistry

/-- `HelperDescriptor::validate`. -/
def HelperDescriptor.validate (d : HelperDescriptor) : Exec Unit := do
  CpuRegistry.validate d
  require (!(d.abi = .cpuReload &&
      (d.results ≠ CpuRegistry.reloadTypes d.name || d.exceptionOwner ≠ .helper)))
    "invalid CPU normal-reload contract"
  require (!((d.abi = .cpuExit || d.abi = .cpuRep) &&
      (d.exceptionOwner ≠ .helper || !d.results.isEmpty || !d.effects.mayTransfer ||
        !d.effects.invalidatesCode)))
    "invalid CPU exit helper contract"
  require (!(d.abi = .cpuRep && !d.effects.mayYield)) "REP helper must allow progress yields"
  require (!(d.effects.mayFault && d.exceptionOwner = .cannotFault))
    "faulting helper has no exception owner"
  require (!(d.params ++ d.results).any fun t => [Ty.effect, .guardProof, .rmwTicket].contains t)
    "compile-time value in helper ABI"

namespace X87

/-- `x87::Io`. -/
inductive Io
  | load (bytes : Nat)
  | store (bytes : Nat)
  | stack

/-- `x87::valid_register`. -/
def validRegister (opcode group r : Nat) : Bool :=
  match opcode with
  | 0xD8 | 0xDC => true
  | 0xD9 =>
    match group with
    | 0 | 1 | 3 | 6 | 7 => true
    | 2 => r == 0
    | 4 => [0, 1, 4, 5].contains r
    | 5 => r ≤ 6
    | _ => false
  | 0xDA =>
    match group with
    | 0 | 1 | 2 | 3 => true
    | 5 => r == 1
    | _ => false
  | 0xDB =>
    match group with
    | 0 | 1 | 2 | 3 | 5 | 6 => true
    | 4 => r ≤ 4
    | _ => false
  | 0xDD => group ≤ 5
  | 0xDE => group != 3 || r == 1
  | 0xDF =>
    match group with
    | 0 | 1 | 2 | 3 | 5 | 6 => true
    | 4 => r == 0
    | _ => false
  | _ => false

/-- `x87::register_touches_cpu`. -/
def registerTouchesCpu (opcode group : Nat) : Bool :=
  match opcode with
  | 0xDA => group ≤ 3
  | 0xDB => group ≤ 3 || group == 5 || group == 6
  | 0xDF => 4 ≤ group && group ≤ 6
  | _ => false

/-- `x87::io`. -/
def io (opcode modrm : Nat) : Option Io :=
  let group := modrm / 8 % 8
  if 0xC0 ≤ modrm then
    if validRegister opcode group (modrm % 8) && !registerTouchesCpu opcode group then some .stack
    else none
  else
    match opcode, group with
    | 0xD8, _ | 0xDA, _ | 0xD9, 0 | 0xDB, 0 => some (.load 4)
    | 0xDC, _ | 0xDD, 0 | 0xDF, 5 => some (.load 8)
    | 0xDE, _ | 0xDF, 0 | 0xD9, 5 => some (.load 2)
    | 0xD9, 2 | 0xD9, 3 | 0xDB, 1 | 0xDB, 2 | 0xDB, 3 => some (.store 4)
    | 0xDD, 1 | 0xDD, 2 | 0xDD, 3 | 0xDF, 7 => some (.store 8)
    | 0xDF, 1 | 0xDF, 2 | 0xDF, 3 | 0xD9, 7 | 0xDD, 7 => some (.store 2)
    | _, _ => none

end X87

end V86.Ir
