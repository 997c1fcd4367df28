import Distcc.DotdInfo
import Distcc.Serve.Tweak

/-!
# Options without their operand

A command line may end with an option that expects an operand. Five functions walk along the
arguments, and each has its own list of such options: `dcc_scan_args`,
`dcc_strip_local_args`, `dcc_strip_dasho`, `dcc_get_dotd_info` and
`tweak_include_arguments_for_server`. All but the second step over the `NULL` then, and go on
with what is behind the vector.

An option may itself be the operand of another. So what counts is not the last word but the
run of such options at the end: the last of them has no operand if their number is odd
(`Dangles`). Only `dcc_scan_args` may have returned before it comes there.
-/

namespace Distcc

open CString

/-- The options that `tweak_include_arguments_for_server` finds. -/
theorem takesNext_firstOption_eq :
    takesNext firstOption = (includeOptions.erase withPrefixBefore).contains := by
  have hself : ∀ o ∈ includeOptions.erase withPrefixBefore, firstOption o = some o := by decide
  have hnodup : includeOptions.Nodup := by decide
  funext a
  rw [Bool.eq_iff_iff, takesNext_iff, List.contains_iff_mem]
  refine ⟨fun h => (hnodup.mem_erase_iff).mpr ⟨?_, (mem_of_firstOption h).1⟩, hself a⟩
  rintro rfl
  exact absurd h (by decide)

theorem inside_tweakIncludeArgumentsForServerAt_iff (rootDir : CString) (words : List CString) :
    (Inside fun behind => do
        let argv ← tweakIncludeArgumentsForServerAt rootDir (terminated words behind)
        pure (wordsOf argv)) ↔
      ¬Dangles (includeOptions.erase withPrefixBefore).contains words := by
  rw [← takesNext_firstOption_eq, dangles_iff_pending]
  constructor
  · rintro ⟨r, hr, hrun⟩ hlast
    have hwalk : walkWords (tweakStep rootDir) words [] = none := by
      rw [walkWords_tweakStep, hlast, if_pos rfl]
    have htweak : tweakIncludeArgumentsForServerAt rootDir (terminated words []) () =
        some (.error .bounds, ()) := Prog.bind_of_error (walkSlots_of_none hwalk)
    have hfault :=
      Prog.bind_of_error (f := fun argv => (pure (wordsOf argv) : Prog Unit Fault _)) htweak
    obtain ⟨rfl, -⟩ := Prod.mk.inj (Option.some.inj ((hrun []).symm.trans hfault))
    exact hr rfl
  · intro hlast
    refine ⟨.ok (tweakWords rootDir firstOption false words), nofun, fun behind => ?_⟩
    rw [Prog.bind_of_ok (tweakIncludeArgumentsForServerAt_terminated rootDir
      (Bool.not_eq_true _ ▸ hlast) behind), wordsOf_terminated]
    rfl

/-- **The walkers stay inside the vector**: none of them uses an index greater than that of
the `NULL`, and what they give depends on the words only. -/
structure WalkersInside (words : List CString) : Prop where
  scanArgs : Inside fun behind => dccScanArgsAt (terminated words behind)
  stripLocalArgs : Inside fun behind => dccStripLocalArgsAt (terminated words behind)
  stripDasho : Inside fun behind => dccStripDashoAt (terminated words behind)
  getDotdInfo : ∀ envVar stray, Inside fun outside : Argv × Argv =>
    dccGetDotdInfo envVar stray outside.1 (terminated words outside.2)
  tweakIncludeArguments : ∀ rootDir, Inside fun behind => do
    let argv ← tweakIncludeArgumentsForServerAt rootDir (terminated words behind)
    pure (wordsOf argv)

/-- **When the walkers stay inside the vector.** -/
theorem walkersInside_iff {compiler : CString} {rest : List CString}
    (h : isDash compiler = false) :
    WalkersInside (compiler :: rest) ↔
      ¬ScanOverruns (compiler :: rest) ∧ ¬Dangles (· = lit "-o") (compiler :: rest) ∧
        ¬Dangles dotdOperand (compiler :: rest) ∧
        ¬Dangles (includeOptions.erase withPrefixBefore).contains (compiler :: rest) := by
  constructor
  · intro hinside
    have hscan := (inside_dccScanArgsAt_iff h).mp hinside.scanArgs
    exact ⟨hscan, (inside_dccStripDashoAt_iff _).mp hinside.stripDasho,
      (inside_dccGetDotdInfo_iff h hscan none 0).mp (hinside.getDotdInfo none 0),
      (inside_tweakIncludeArgumentsForServerAt_iff [] _).mp (hinside.tweakIncludeArguments [])⟩
  · rintro ⟨hscan, hdasho, hdotd, hinclude⟩
    exact
      { scanArgs := (inside_dccScanArgsAt_iff h).mpr hscan
        stripLocalArgs := inside_dccStripLocalArgsAt _
        stripDasho := (inside_dccStripDashoAt_iff _).mpr hdasho
        getDotdInfo := fun envVar stray =>
          (inside_dccGetDotdInfo_iff h hscan envVar stray).mpr hdotd
        tweakIncludeArguments := fun rootDir =>
          (inside_tweakIncludeArgumentsForServerAt_iff rootDir _).mpr hinclude }

/-- An option may be the operand of another. -/
theorem walkersInside_iff_operands :
    WalkersInside (["gcc", "-c", "hello.c", "-o", "hello.o", "-MT", "-MF"].map lit) :=
  (walkersInside_iff (by decide)).mpr
    ⟨fun h => absurd h.1 (by decide), by decide, by decide, by decide⟩

/-- **A last `-o` is not noticed.** -/
theorem not_walkersInside :
    ¬WalkersInside (["gcc", "-c", "hello.c", "-o"].map lit) := by
  intro h
  obtain ⟨r, hr, hrun⟩ := h.scanArgs
  have hfault : dccScanArgsAt (terminated (["gcc", "-c", "hello.c", "-o"].map lit) []) () =
      some (.error .bounds, ()) := by decide
  obtain ⟨rfl, -⟩ := Prod.mk.inj (Option.some.inj ((hrun []).symm.trans hfault))
  exact hr rfl

end Distcc
