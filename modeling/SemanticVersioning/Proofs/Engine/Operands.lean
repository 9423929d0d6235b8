import SemanticVersioning.Proofs.Engine.Lookups

/-!
# Operands and versions

Operands of ranges and versions have readers of their own. The reader of operands stops after a
third component with its qualifier, wherever that is, and one letter and blanks may stand in front.
The reader of versions goes on to the end of its text, skips any run of leaders, and is shown
nothing but what stands between the outer blanks. The table of versions is filled through both.

`Operand.parse_text_eq_version` says that they agree on each complete operand: its own text, read
again, is read to the end, as the same version with the same attachments. So what a range puts into
the table is what a loose reading of the text would put there.

## Blanks in front

Within a range the blanks before an operand belong to what stands before it. The reader of operands
takes them all the same if it is set on them, and they are then part of the operand's text, with or
without a letter. The notation of operands does not cover such texts (`operand_sound` excludes
them), so the argument starts from the parts of what was read (`operand_parts`). Read as a version,
the text loses the blanks at the outer end and skips the others.
-/

namespace SemanticVersioning

open Reader Text

/-- The own text of what was read as a complete operand is leaders and the components of the
version. -/
theorem exists_leaders_of_operand {s rest : List Char} {o : Operand} {w : Version}
    (hread : operand s = .read o rest) (hfull : o.extent = .full w) :
    s = o.text.toList ++ rest ∧ ∃ lead t, o.text.toList = lead ++ t ∧
      (∀ c ∈ lead, isLeader c = true) ∧ WritesExtent t (.full w) := by
  obtain ⟨letter, blanks, t, rfl, htext, hletter, hblanks, ht⟩ := operand_parts hread
  rw [hfull] at ht
  rw [htext, String.toList_ofList]
  refine ⟨rfl, letter ++ blanks, t, (List.append_assoc letter blanks t).symm, ?_, ht⟩
  rw [List.forall_mem_append]
  refine ⟨?_, fun c hc => isLeader_of_isInlineSpace (hblanks c hc)⟩
  rcases hletter with rfl | ⟨m, hm, rfl⟩
  · simp
  · exact List.forall_mem_singleton.2 (isLeader_of_isMark hm)

/-- What a resolved operand does to the table of versions, if its text is read as its version. -/
theorem Operand.run_resolveM_operandMemo {o : Operand} {options : Options} {v : Version}
    (hv : o.version? options = some v) (hlength : utf8Length o.text.toList ≤ maxLength)
    (hparse : Version.parse o.text options.loosely = .ok v) (versions : Table Version) :
    ((o.resolveM Cache.operandMemo options).run versions).2 =
      (versions.getOrInsert ⟨o.text, options.loosely⟩ fun _ =>
        Version.parse o.text options.loosely).2 := by
  have hoffer : o.offer? options = some (⟨o.text, options.loosely⟩, v) := by
    rw [offer?, if_pos hlength, hv, Option.map_some]
  have hkey : (Key.mk o.text options.loosely).readVersion = .ok v := hparse
  have hcalls := o.calls_resolveM Cache.operandMemo options versions
  rw [hoffer] at hcalls
  exact hcalls.trans (Cache.operandMemo_run_snd hkey versions)

/-- **A complete operand is read as a version is read.**  Wherever the reader of operands reads a
complete one, whose text is not too long for a version, that text alone is read as a version under
the loose options: to its end, with the numbers, identifiers and build metadata of the operand. It
is the version that the operand offers to the table of versions, down to the text and the options
that it remembers, and the operand leaves the table as a loose reading of the text would. -/
theorem Operand.parse_text_eq_version {s rest : List Char} {o : Operand} {w : Version}
    (hread : Reader.operand s = .read o rest) (hfull : o.extent = .full w)
    (hlength : o.text.utf8ByteSize ≤ maxLength) {options : Options}
    (hloose : options.loose = true) :
    s = o.text.toList ++ rest ∧
      Version.parse o.text options = .ok { w with raw := some o.text, options } ∧
        o.version? options = some { w with raw := some o.text, options } ∧
          ∀ versions : Table Version,
            ((o.resolveM Cache.operandMemo options).run versions).2 =
              (versions.getOrInsert ⟨o.text, options⟩ fun _ => Version.parse o.text options).2 := by
  obtain ⟨hs, lead, t, htext, hlead, ht⟩ := exists_leaders_of_operand hread hfull
  rw [← utf8Length_toList] at hlength
  have hparse := ht.parse_eq_ok hlead htext hlength hloose
  have hloosely : options.loosely = options := by
    rw [Options.loosely, ← hloose]
  have hversion : o.version? options = some { w with raw := some o.text, options } :=
    Operand.version?_eq_some_iff.2 ⟨w, hfull, by rw [hloosely]⟩
  refine ⟨hs, hparse, hversion, fun versions => ?_⟩
  have hrun := Operand.run_resolveM_operandMemo hversion hlength (hloosely.symm ▸ hparse) versions
  rwa [hloosely] at hrun

/-- Two blanks in front, a leading zero and no dash. The operand ends before the next blank. -/
theorem Operand.parse_text_eq_version_blanks : ∃ o v,
    Reader.operand "  01.2.3beta.1+b || 2".toList = .read o " || 2".toList ∧
      v = { core := ⟨1, 2, 3⟩, preRelease := [.alphanumeric "beta", .numeric 1], build := ["b"],
            raw := some "  01.2.3beta.1+b", options := { loose := true } } ∧
        Version.parse "  01.2.3beta.1+b" { loose := true } = .ok v ∧
          o.version? { loose := true } = some v := by
  let w : Version :=
    { core := ⟨1, 2, 3⟩, preRelease := [.alphanumeric "beta", .numeric 1], build := ["b"] }
  have hread : Reader.operand "  01.2.3beta.1+b || 2".toList =
      .read ⟨"  01.2.3beta.1+b", .full w⟩ " || 2".toList := by
    decide +kernel
  have hloose : ({ loose := true } : Options).loose = true := rfl
  obtain ⟨-, hparse, hversion, -⟩ := Operand.parse_text_eq_version hread rfl (by decide) hloose
  exact ⟨_, _, hread, rfl, hparse, hversion⟩

end SemanticVersioning
