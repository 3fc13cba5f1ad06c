/-
  EzBakeCommon.Hosts.JavaAgreement — OpenShiftUtil in C++ and in Java.

  Both classes answer from the same variable of the environment.  Wherever the one in
  C++ returns a path, the one in Java, and `getPath` of EzProperties, make the same
  of it; where it does not, the path is relative and the variable is not set or
  empty.  They disagree about one more kind of directory: for one of spaces only,
  Java is in a container and C++ is not (`java_agrees`).  The charset of the virtual
  machine is taken to be Latin-1: each byte is one character.
-/
import EzBakeCommon.Hosts.OpenShiftUtil
import EzBakeCommon.Properties.Paths

namespace EzBakeCommon.Hosts

open Library

/-- A text as the virtual machine decodes it, each byte being one character, as in Latin-1.
A text of ASCII characters only is decoded so under the other usual charsets too. -/
def widen (s : StdString) : JavaString := s.map (fun b => UInt16.ofNat b.toNat)

theorem widen_byte_injective :
    Function.Injective (fun b : UInt8 => UInt16.ofNat b.toNat) := by
  intro b b' h
  have hnat := congrArg UInt16.toNat h
  simp only [UInt16.toNat_ofNat'] at hnat
  refine UInt8.toNat_inj.mp ?_
  have hb := b.toNat_lt
  have hb' := b'.toNat_lt
  omega

theorem widen_append (s s' : StdString) : widen (s ++ s') = widen s ++ widen s' := List.map_append

namespace OpenShiftUtil

open Properties (resolve isAbsolute)

variable {env : Environment}

/-- What Java finds in the environment. -/
def javaEnv (env : Environment) : Properties.OpenShiftUtil.Environment :=
  (env .repoDir).map widen

theorem isAbsolute_widen {file : StdString} :
    isAbsolute (widen file) = true ↔ file.head? = some fileSeperator := by
  have hsep : Properties.OpenShiftUtil.separator = UInt16.ofNat fileSeperator.toNat := rfl
  unfold isAbsolute widen
  rw [decide_eq_true_iff, List.head?_map, hsep]
  exact (Option.map_injective widen_byte_injective).eq_iff (b := some fileSeperator)

theorem endsWith_widen {dir : StdString} :
    (widen dir).endsWith [Properties.OpenShiftUtil.separator] = true ↔
      dir.getLast? = some fileSeperator := by
  have hsep : Properties.OpenShiftUtil.separator = UInt16.ofNat fileSeperator.toNat := rfl
  unfold widen
  rw [JavaString.endsWith_iff, List.singleton_suffix_iff_getLast?_eq_some, List.getLast?_map, hsep]
  exact (Option.map_injective widen_byte_injective).eq_iff (b := some fileSeperator)

/-- Java is in a container where C++ is, and also in one of spaces. -/
theorem container_agrees (env : Environment) :
    (inOpenShiftContainer env = true →
      Properties.OpenShiftUtil.inOpenShiftContainer (javaEnv env) = true) ∧
    (Properties.OpenShiftUtil.inOpenShiftContainer (javaEnv env) = true ∧
        inOpenShiftContainer env = false ↔ ∃ dir, env .repoDir = some dir ∧ OnlySpaces dir) := by
  unfold Properties.OpenShiftUtil.inOpenShiftContainer javaEnv inOpenShiftContainer
  cases env .repoDir with
  | none => simp
  | some dir =>
      refine ⟨fun _ => rfl, ?_⟩
      show true = true ∧ (findFirstNotBlank dir).isSome = false ↔ _
      rw [Option.isSome_eq_false_iff, Option.isNone_iff_eq_none, findFirstNotBlank_eq_none]
      simp

/-- Both return the directory where it is set and not empty. -/
theorem getRepoDir_of_set {dir : StdString} (hdir : env .repoDir = some dir) (hne : dir ≠ []) :
    getRepoDir env = .ok dir ∧
      Properties.OpenShiftUtil.getRepoDir (javaEnv env) = .ok (widen dir) := by
  constructor
  · unfold getRepoDir
    rw [hdir]
    exact if_neg hne
  · unfold javaEnv
    rw [hdir]
    rfl

/-- C++ returns no directory that is not set, or empty. -/
theorem getRepoDir_stops (h : env .repoDir = none ∨ env .repoDir = some []) :
    ∃ stop, getRepoDir env = .error stop := by
  unfold getRepoDir
  rcases h with h | h
  · rw [h]
    exact ⟨_, rfl⟩
  · rw [h]
    exact ⟨_, rfl⟩

/-- The two cases of the directory. -/
theorem repoDir_cases (env : Environment) :
    (env .repoDir = none ∨ env .repoDir = some []) ∨
      ∃ dir, env .repoDir = some dir ∧ dir ≠ [] := by
  cases hdir : env .repoDir with
  | none => exact Or.inl (Or.inl rfl)
  | some dir =>
      by_cases hne : dir = []
      · exact Or.inl (Or.inr (congrArg some hne))
      · exact Or.inr ⟨dir, rfl, hne⟩

/-- The directory of the configuration: where C++ has one, Java has the same. -/
theorem getConfigurationDir_agrees (env : Environment) :
    (∀ r, getConfigurationDir env = .ok r →
      Properties.OpenShiftUtil.getConfigurationDir (javaEnv env) = .ok (widen r)) ∧
    ((∃ stop, getConfigurationDir env = .error stop) ↔
      env .repoDir = none ∨ env .repoDir = some []) := by
  rcases repoDir_cases env with hunset | ⟨dir, hdir, hne⟩
  · obtain ⟨stop, hstop⟩ := getRepoDir_stops hunset
    have hnone : getConfigurationDir env = .error stop := by
      unfold getConfigurationDir
      rw [hstop, stops_bind]
    rw [hnone]
    exact ⟨fun r h => absurd h (by simp), iff_of_true ⟨stop, rfl⟩ hunset⟩
  · obtain ⟨hcpp, hjava⟩ := getRepoDir_of_set hdir hne
    have hset : ¬ (env .repoDir = none ∨ env .repoDir = some []) := by
      rw [hdir]
      simpa using hne
    have hcppDir : getConfigurationDir env
        = if dir.getLast? = some fileSeperator then .ok (dir ++ openShiftConfigDir)
          else .ok (dir ++ [fileSeperator] ++ openShiftConfigDir) := by
      unfold getConfigurationDir
      rw [hcpp, returns_bind]
    have hjavaDir : Properties.OpenShiftUtil.getConfigurationDir (javaEnv env)
        = if (widen dir).endsWith [Properties.OpenShiftUtil.separator] = true
          then .ok (widen dir ++ Properties.OpenShiftUtil.ezbakeConfigDir)
          else .ok (widen dir ++ [Properties.OpenShiftUtil.separator]
            ++ Properties.OpenShiftUtil.ezbakeConfigDir) := by
      unfold Properties.OpenShiftUtil.getConfigurationDir
      rw [hjava]
      rfl
    rw [hcppDir, hjavaDir]
    by_cases hends : dir.getLast? = some fileSeperator
    · rw [if_pos hends, if_pos (endsWith_widen.mpr hends)]
      refine ⟨fun r h => ?_, iff_of_false (by simp) hset⟩
      rw [← Except.ok.inj h, widen_append]
      rfl
    · rw [if_neg hends, if_neg (fun h => hends (endsWith_widen.mp h))]
      refine ⟨fun r h => ?_, iff_of_false (by simp) hset⟩
      rw [← Except.ok.inj h, widen_append, widen_append]
      rfl

/-- A path of the repository: where C++ has one, Java has the same. -/
theorem getRepoPath_agrees (env : Environment) (file : StdString) :
    (∀ r, getRepoPath env file = .ok r → resolve (javaEnv env) (widen file) = widen r) ∧
    ((∃ stop, getRepoPath env file = .error stop) ↔ file.head? ≠ some fileSeperator ∧
      (env .repoDir = none ∨ env .repoDir = some [])) := by
  by_cases habs : file.head? = some fileSeperator
  · have hcpp : getRepoPath env file = .ok file := if_pos habs
    have hjava : resolve (javaEnv env) (widen file) = widen file := by
      unfold resolve
      cases javaEnv env with
      | none => rfl
      | some dir => exact if_pos (isAbsolute_widen.mpr habs)
    rw [hcpp]
    refine ⟨fun r h => ?_, iff_of_false (by simp) (fun h => h.1 habs)⟩
    rw [← Except.ok.inj h]
    exact hjava
  · have hunder : getRepoPath env file
        = (getRepoDir env >>= fun dir => .ok (dir ++ [fileSeperator] ++ file)) := if_neg habs
    rcases repoDir_cases env with hunset | ⟨dir, hdir, hne⟩
    · obtain ⟨stop, hstop⟩ := getRepoDir_stops hunset
      rw [hunder, hstop, stops_bind]
      exact ⟨fun r h => absurd h (by simp), iff_of_true ⟨stop, rfl⟩ ⟨habs, hunset⟩⟩
    · have hset : ¬ (env .repoDir = none ∨ env .repoDir = some []) := by
        rw [hdir]
        simpa using hne
      have hjava : resolve (javaEnv env) (widen file)
          = widen (dir ++ [fileSeperator] ++ file) := by
        unfold resolve javaEnv
        rw [hdir, widen_append, widen_append]
        exact if_neg (fun h => habs (isAbsolute_widen.mp h))
      rw [hunder, (getRepoDir_of_set hdir hne).1, returns_bind]
      refine ⟨fun r h => ?_, iff_of_false (by simp) (fun h => hset h.2)⟩
      rw [← Except.ok.inj h]
      exact hjava

/-- **C++ and Java agree** on the environment they share: wherever C++ returns, so does Java,
with the same path; C++ returns none where the directory is not set or empty; and
only of a directory of spaces one says that it is a container and the other that it
is none. -/
theorem java_agrees (env : Environment) :
    ((inOpenShiftContainer env = true →
        Properties.OpenShiftUtil.inOpenShiftContainer (javaEnv env) = true) ∧
      (Properties.OpenShiftUtil.inOpenShiftContainer (javaEnv env) = true ∧
          inOpenShiftContainer env = false ↔
        ∃ dir, env .repoDir = some dir ∧ OnlySpaces dir)) ∧
    ((∀ r, getConfigurationDir env = .ok r →
        Properties.OpenShiftUtil.getConfigurationDir (javaEnv env) = .ok (widen r)) ∧
      ((∃ stop, getConfigurationDir env = .error stop) ↔
        env .repoDir = none ∨ env .repoDir = some [])) ∧
    ∀ file, (∀ r, getRepoPath env file = .ok r →
        resolve (javaEnv env) (widen file) = widen r) ∧
      ((∃ stop, getRepoPath env file = .error stop) ↔ file.head? ≠ some fileSeperator ∧
        (env .repoDir = none ∨ env .repoDir = some [])) :=
  ⟨container_agrees env, getConfigurationDir_agrees env, getRepoPath_agrees env⟩

end OpenShiftUtil

end EzBakeCommon.Hosts
