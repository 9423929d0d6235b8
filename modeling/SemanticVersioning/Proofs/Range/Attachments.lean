import Mathlib.Logic.Relation
import SemanticVersioning.Proofs.Range.Embedding
import SemanticVersioning.Proofs.Range.Exchange
import SemanticVersioning.Range.Selection

/-!
# Attachments do not matter

Build metadata, text and options are attached to versions and play no part in any answer. There are
two sides to this.

* Versions that are *asked about* count by their ranks. The position that is selected from a list is
  found from the ranks in the list (`Range.map_key_selectHighest?`, `Range.map_key_selectLowest?`).
* Versions that are *named in a range text* lose their build metadata. To change it, to add some or to
  leave it out (`Rebuilds`) is to exchange one operand for another that means the same
  (`WritesComplete.exchanges`), and each complete operand of the text is one for which this can be done
  (`Alternatives.exists_rebuilds`).

Both are said by `Range.attachments_irrelevant`.
-/

namespace SemanticVersioning

open Reader Text

/-! ## Selecting by rank -/

/-- What a selection looks at: where a choice stands, and the rank of its version. -/
def Choice.key (choice : Choice) : Nat × Rank :=
  (choice.index, choice.version.toRank)

namespace Range

variable {vs vs' : List Version}

theorem map_key_admitted (range : Range) (vs : List Version) :
    (range.admitted vs).map Choice.key =
      ((vs.map (·.toRank)).zipIdx.map fun entry => (entry.2, entry.1)).filter fun key =>
        range.admits { toRank := key.2 } := by
  have hadmits : ∀ v : Version, range.admits { toRank := v.toRank } = range.admits v :=
    fun v => admits_congr rfl
  simp only [admitted, List.zipIdx_map, List.filter_map, List.map_map, Function.comp_def, hadmits,
    Choice.key, Prod.map]
  rfl

/-- The choice of the highest version, seen by its key. -/
theorem map_key_selectHighest? (range : Range) (vs : List Version) :
    (range.selectHighest? vs).map Choice.key =
      best? (fun key kept => (compare key.2 kept.2).isGE) ((range.admitted vs).map Choice.key) :=
  map_best? (fun key kept : Nat × Rank => (compare key.2 kept.2).isGE) Choice.key (range.admitted vs)

/-- The choice of the lowest version, seen by its key. -/
theorem map_key_selectLowest? (range : Range) (vs : List Version) :
    (range.selectLowest? vs).map Choice.key =
      best? (fun key kept => (compare key.2 kept.2).isLT) ((range.admitted vs).map Choice.key) :=
  map_best? (fun key kept : Nat × Rank => (compare key.2 kept.2).isLT) Choice.key (range.admitted vs)

theorem selectHighest?_congr (range : Range) (h : vs'.map (·.toRank) = vs.map (·.toRank)) :
    (range.selectHighest? vs').map Choice.key = (range.selectHighest? vs).map Choice.key := by
  rw [map_key_selectHighest?, map_key_selectHighest?, map_key_admitted, map_key_admitted, h]

theorem selectLowest?_congr (range : Range) (h : vs'.map (·.toRank) = vs.map (·.toRank)) :
    (range.selectLowest? vs').map Choice.key = (range.selectLowest? vs).map Choice.key := by
  rw [map_key_selectLowest?, map_key_selectLowest?, map_key_admitted, map_key_admitted, h]

end Range

/-! ## Build metadata in range texts -/

theorem WritesQualifier.append_build {loose afterNumber : Bool} {q b : List Char}
    {is : List Identifier} {parts : List String} (h : WritesQualifier loose afterNumber q is [])
    (hb : Optionally WritesBuild b parts) : WritesQualifier loose afterNumber (q ++ b) is parts := by
  generalize hparts : [] = written at h
  cases h with
  | intro ht hu =>
    cases hu with
    | absent =>
      rw [List.append_nil]
      exact .intro ht hb
    | present hu =>
      cases hu with
      | intro hdotted => exact absurd hparts.symm hdotted.ne_nil

/-- Build metadata after a complete operand without any is that of the operand. -/
theorem WritesExtent.exists_append_build {t b : List Char} {v : Version} {parts : List String}
    (h : WritesExtent t (.full v)) (hv : v.build = []) (hb : Optionally WritesBuild b parts) :
    ∃ w, WritesExtent (t ++ b) (.full w) ∧ w.toRank = v.toRank := by
  obtain ⟨x, y, z, q, rfl, hx, hy, hz, hq⟩ := h.exists_of_full
  rw [hv] at hq
  have hwrites := WritesExtent.more (.number hx)
    (.more (.number hy) (.intro (.number hz) (hq.append_build hb)))
  refine ⟨{ toRank := v.toRank, build := parts }, ?_, rfl⟩
  simp only [List.append_assoc, List.cons_append]
  exact hwrites

/-- The build metadata of a complete operand stands at the end of its text. -/
theorem WritesExtent.exists_build {t : List Char} {v : Version} (h : WritesExtent t (.full v)) :
    ∃ u b w, t = u ++ b ∧ WritesExtent u (.full w) ∧ w.build = [] ∧
      Optionally WritesBuild b v.build := by
  obtain ⟨x, y, z, q, rfl, hx, hy, hz, hq⟩ := h.exists_of_full
  cases hq with
  | @intro p b _ _ hp hb =>
    have hwrites := WritesExtent.more (.number hx)
      (.more (.number hy) (.intro (.number hz) (.intro hp .absent)))
    rw [List.append_nil] at hwrites
    exact ⟨_, b, { toRank := v.toRank }, by simp, hwrites, rfl, hb⟩

/-- A text that writes a complete operand without build metadata, with the letter in front of its
components if that stands next to them. -/
def WritesComplete (t : List Char) : Prop :=
  ∃ v, WritesRun t (.full v) ∧ v.build = []

/-- Strict version texts without build metadata are complete operands. -/
theorem Version.writesComplete_of_parse {text : String} {v : Version}
    (h : Version.parse text {} = .ok v) (hv : v.build = []) : WritesComplete text.toList := by
  obtain ⟨-, hstrict, -, -⟩ := Version.parse_eq_ok_iff.1 h
  have hextent := hstrict.writable.writesExtent
  rw [Version.render_eq_of_parse_strict h h] at hextent
  exact ⟨_, .unmarked hextent, hv⟩

/-- With one or the other build metadata, or with none, an operand means the same. -/
theorem WritesComplete.exchanges {t b b' : List Char} {parts parts' : List String}
    (h : WritesComplete t) (hb : Optionally WritesBuild b parts)
    (hb' : Optionally WritesBuild b' parts') : Exchanges (t ++ b) (t ++ b') := by
  have hbare : ∀ {v w w' : Version}, w.toRank = v.toRank → w'.toRank = v.toRank →
      (Extent.full w').map Version.bare = (Extent.full w).map Version.bare := by
    intro v w w' hw hw'
    exact congrArg Extent.full (Version.bare_eq_bare_iff.2 (hw'.trans hw.symm))
  obtain ⟨v, hrun, hv⟩ := h
  cases hrun with
  | unmarked ht =>
    obtain ⟨w, hwrites, hw⟩ := ht.exists_append_build hv hb
    obtain ⟨w', hwrites', hw'⟩ := ht.exists_append_build hv hb'
    exact .unmarked hwrites hwrites' (hbare hw hw')
  | marked hm ht =>
    obtain ⟨w, hwrites, hw⟩ := ht.exists_append_build hv hb
    obtain ⟨w', hwrites', hw'⟩ := ht.exists_append_build hv hb'
    exact .marked hm hwrites hwrites' (hbare hw hw')

theorem WritesRun.exists_complete {x : List Char} {v : Version} (h : WritesRun x (.full v)) :
    ∃ t b, x = t ++ b ∧ WritesComplete t ∧ Optionally WritesBuild b v.build := by
  cases h with
  | unmarked ht =>
    obtain ⟨u, b, w, rfl, hu, hw, hb⟩ := ht.exists_build
    exact ⟨u, b, rfl, ⟨w, .unmarked hu, hw⟩, hb⟩
  | @marked m _ _ hm ht =>
    obtain ⟨u, b, w, rfl, hu, hw, hb⟩ := ht.exists_build
    exact ⟨m :: u, b, rfl, ⟨w, .marked hm hu, hw⟩, hb⟩

/-- One text is another in which a complete operand has other build metadata, or has some where the
other has none, or the other way round. The operand is all that stands between two characters of other
classes. -/
inductive Rebuilds : String → String → Prop
  | intro {text text' : String} {before t b b' after : List Char} {parts parts' : List String} :
      WritesComplete t → Optionally WritesBuild b parts → Optionally WritesBuild b' parts' →
      Avoids isExtentChar before.reverse → Avoids isExtentChar after →
      text.toList = before ++ (t ++ b ++ after) → text'.toList = before ++ (t ++ b' ++ after) →
        Rebuilds text text'

/-- **Each complete operand of a range text** stands in it as an operand whose build metadata may be
changed, added or left out. -/
theorem Alternatives.exists_rebuilds {text : String} {alternatives : Alternatives Operand}
    {o : Operand} {v : Version} (h : parse text = .ok alternatives)
    (ho : o ∈ alternatives.operands) (hv : o.extent = .full v) :
    ∃ before t b after, text.toList = before ++ (t ++ b ++ after) ∧
      WritesComplete t ∧ Optionally WritesBuild b v.build ∧
      ∀ (b' : List Char) (parts' : List String), Optionally WritesBuild b' parts' →
        Rebuilds text (String.ofList (before ++ (t ++ b' ++ after))) := by
  obtain ⟨x, before, after, hoccurs, hrun⟩ := (parse_eq_ok_iff.1 h).exists_occurs ho
  rw [hv] at hrun
  obtain ⟨t, b, rfl, ht, hb⟩ := hrun.exists_complete
  obtain ⟨htext, hbefore, hafter⟩ := hoccurs.of_trim
  exact ⟨_, t, b, _, htext, ht, hb, fun _ _ hb' =>
    .intro ht hb hb' hbefore hafter htext String.toList_ofList⟩

namespace Range

variable {text text' : String} {options : Options} {range : Range}

theorem exists_parse_rebuilds (h : Rebuilds text text') (hparse : parse text options = .ok range) :
    ∃ range', parse text' options = .ok range' ∧ range'.bare = range.bare := by
  cases h with
  | intro ht hb hb' hbefore hafter htext htext' =>
    exact exists_parse_exchange (ht.exchanges hb hb') ⟨htext, hbefore, hafter⟩ htext' hparse

/-- As many operands as one likes may get other build metadata. -/
theorem exists_parse_of_rebuilds (h : Relation.ReflTransGen Rebuilds text text')
    (hparse : parse text options = .ok range) :
    ∃ range', parse text' options = .ok range' ∧ range'.bare = range.bare := by
  induction h with
  | refl => exact ⟨range, hparse, rfl⟩
  | tail _ hstep ih =>
    obtain ⟨range₁, hparse₁, hbare₁⟩ := ih
    obtain ⟨range₂, hparse₂, hbare₂⟩ := exists_parse_rebuilds hstep hparse₁
    exact ⟨range₂, hparse₂, hbare₂.trans hbare₁⟩

/-- **Attachments do not matter.**  Versions of one rank compare alike, meet the same comparators and
are admitted by the same ranges, and lists of versions of the same ranks have their choices in the same
place. Range texts that differ in the build metadata of complete operands are read as ranges that are
alike in all that can be asked of them, and of each complete operand of a range text the build metadata
may be changed, added or left out. -/
theorem attachments_irrelevant :
    (∀ v v' : Version, v'.toRank = v.toRank →
      (∀ w : Version, compare v' w = compare v w ∧ compare w v' = compare w v) ∧
      (∀ c : Comparator, c.test v' = c.test v) ∧
      ∀ range : Range, range.admits v' = range.admits v) ∧
    (∀ vs vs' : List Version, vs'.map (·.toRank) = vs.map (·.toRank) → ∀ range : Range,
      (range.selectHighest? vs').map (·.index) = (range.selectHighest? vs).map (·.index) ∧
      (range.selectLowest? vs').map (·.index) = (range.selectLowest? vs).map (·.index)) ∧
    (∀ (text text' : String) (options : Options) (range : Range),
      Relation.ReflTransGen Rebuilds text text' → parse text options = .ok range →
        ∃ range', parse text' options = .ok range' ∧ range'.Alike range) ∧
    ∀ (text : String) (alternatives : Alternatives Operand) (o : Operand) (v : Version),
      Alternatives.parse text = .ok alternatives → o ∈ alternatives.operands → o.extent = .full v →
        ∃ before t b after, text.toList = before ++ (t ++ b ++ after) ∧
          WritesComplete t ∧ Optionally WritesBuild b v.build ∧
          ∀ (b' : List Char) (parts' : List String), Optionally WritesBuild b' parts' →
            Rebuilds text (String.ofList (before ++ (t ++ b' ++ after))) := by
  have hindex : ∀ choice : Option Choice,
      choice.map (·.index) = (choice.map Choice.key).map Prod.fst := by
    intro choice
    rw [Option.map_map]
    rfl
  refine ⟨fun v v' h => ⟨fun w => ?_, fun c => Comparator.test_congr h, fun range => admits_congr h⟩,
    fun vs vs' h range => ?_, fun text text' options range h hparse => ?_,
    fun _ _ _ _ hparse ho hv => Alternatives.exists_rebuilds hparse ho hv⟩
  · rw [Version.compare_def, Version.compare_def, Version.compare_def, Version.compare_def, h]
    exact ⟨rfl, rfl⟩
  · rw [hindex, hindex, hindex, hindex, range.selectHighest?_congr h, range.selectLowest?_congr h]
    exact ⟨rfl, rfl⟩
  · obtain ⟨range', hparse', hbare⟩ := exists_parse_of_rebuilds h hparse
    exact ⟨range', hparse', alike_of_bare_eq (buildless_of_parse hparse')
      (buildless_of_parse hparse) hbare⟩

/-- The build metadata of one operand is left out and that of another one is added. The version asked
about has build metadata too. -/
theorem attachments_irrelevant_linux : ∃ range range' : Range,
    parse ">=1.2.3-rc.1+linux 2.x || 3.0.4" {} = .ok range ∧
    parse ">=1.2.3-rc.1 2.x || 3.0.4+7" {} = .ok range' ∧ range'.Alike range ∧
    (∃ before t b after, ">=1.2.3-rc.1+linux 2.x || 3.0.4".toList = before ++ (t ++ b ++ after) ∧
      Optionally WritesBuild b ["linux"] ∧ Rebuilds ">=1.2.3-rc.1+linux 2.x || 3.0.4"
        (String.ofList (before ++ (t ++ "+7".toList ++ after)))) ∧
    range.admits { (.release 3 0 4 : Version) with build := ["linux"] } = true ∧
    (range.selectHighest? [{ (.release 3 0 4 : Version) with build := ["linux"] },
      .release 1 2 3]).map (·.index) = some 0 := by
  obtain ⟨hasked, hselected, hnamed, hcovered⟩ := attachments_irrelevant
  let rc : Version :=
    { core := ⟨1, 2, 3⟩, preRelease := [.alphanumeric "rc", .numeric 1], raw := some "1.2.3-rc.1" }
  have hrc : WritesComplete "1.2.3-rc.1".toList :=
    Version.writesComplete_of_parse (v := rc) (by decide +kernel) rfl
  have hpatch : WritesComplete "3.0.4".toList :=
    Version.writesComplete_of_parse (v := { Version.release 3 0 4 with raw := some "3.0.4" })
      (by decide +kernel) rfl
  have hword : ∀ {w : List Char}, IsWord w → Optionally WritesBuild ('+' :: w) [String.ofList w] :=
    fun hw => .present (.intro (.single ⟨hw, rfl⟩))
  have hlinux : Optionally WritesBuild "+linux".toList ["linux"] :=
    hword ⟨by decide, List.all_eq_true.1 rfl⟩
  have hseven : Optionally WritesBuild "+7".toList ["7"] :=
    hword ⟨by decide, List.all_eq_true.1 rfl⟩
  have hremoved : Rebuilds ">=1.2.3-rc.1+linux 2.x || 3.0.4" ">=1.2.3-rc.1 2.x || 3.0.4" :=
    @Rebuilds.intro _ _ ['>', '='] _ _ _ (' ' :: "2.x || 3.0.4".toList) _ _ hrc hlinux .absent
      (avoids_cons_iff.2 rfl) (avoids_cons_iff.2 rfl) (by decide) (by decide)
  have hadded : Rebuilds ">=1.2.3-rc.1 2.x || 3.0.4" ">=1.2.3-rc.1 2.x || 3.0.4+7" :=
    @Rebuilds.intro _ _ (">=1.2.3-rc.1 2.x ||".toList ++ [' ']) _ _ _ [] _ _ hpatch .absent hseven
      (by rw [List.reverse_append]; exact avoids_cons_iff.2 rfl) (avoids_nil _) (by decide)
      (by decide)
  let range : Range :=
    { sets := [⟨[.atLeast { rc with
          raw := some "1.2.3-rc.1+linux", options := { loose := true } },
            .floor false 2 0 0, .ceiling 3 0 0]⟩,
        ⟨[⟨.exact, { Version.release 3 0 4 with
          raw := some "3.0.4", options := { loose := true } }⟩]⟩] }
  have hparse : parse ">=1.2.3-rc.1+linux 2.x || 3.0.4" {} = .ok range := by decide +kernel
  obtain ⟨range', hparse', halike⟩ := hnamed _ _ {} range
    ((Relation.ReflTransGen.single hremoved).tail hadded) hparse
  let o : Operand :=
    { text := "1.2.3-rc.1+linux", extent := .full { rc with build := ["linux"], raw := none } }
  let alternatives : Alternatives Operand :=
    ⟨[[.compare .greaterOrEqual o, .compare .exact ⟨"2.x", .major 2⟩],
      [.compare .exact ⟨"3.0.4", .full (.release 3 0 4)⟩]]⟩
  have halternatives : Alternatives.parse ">=1.2.3-rc.1+linux 2.x || 3.0.4" = .ok alternatives := by
    decide +kernel
  obtain ⟨before, t, b, after, htext, -, hb, hrebuilds⟩ :=
    hcovered _ alternatives o _ halternatives List.mem_cons_self rfl
  let built : Version := { Version.release 3 0 4 with build := ["linux"] }
  refine ⟨range, range', hparse, hparse', halike,
    ⟨before, t, b, after, htext, hb, hrebuilds _ _ hseven⟩, ?_, ?_⟩
  · exact ((hasked (.release 3 0 4) built rfl).2.2 range).trans (by decide +kernel)
  · exact (hselected [.release 3 0 4, .release 1 2 3] [built, .release 1 2 3] rfl range).1.trans
      (by decide +kernel)

end Range
end SemanticVersioning
