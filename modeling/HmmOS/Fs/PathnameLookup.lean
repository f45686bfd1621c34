import HmmOS.Fs.VfsCounts
import HmmOS.Nonstd.StringView

/-! # The loop of `pathname_lookup`

The loop as the source has it, with `string_view` operations and the result that
`lookup` leaves behind. On path strings it takes the turns of `pathnameLookup`.
-/
namespace HmmOS.Fs
open Lib Nonstd

/-- The characters of a string in memory: no zero byte, and smaller than any object may be. -/
structure PathString where
  chars : Name
  nul_free : StringView.nul ∉ chars
  fits : chars.length < 2 ^ 31

/-- `Inode::lookup` with the result it is given: it changes it if the name is missing. -/
def Inode.lookupRes (disk : Disk) (s : Vfs) (i addr : ℕ) (name : Name) (res : Result) :
    Except Stop (Vfs × Option ℕ × Result) := do
  let (s, inode) ← Inode.lookup disk s i addr name
  return (s, inode, if inode.isNone then .FileNotFound else res)

/-- One turn of the loop, as in `lookupComponent`, with the comparisons and the result. -/
def lookupTurn (disk : Disk) (s : Vfs) (it : ℕ) (component : Name) (res : Result) (addrs : ℕ × ℕ) :
    Except Stop (Vfs × Option ℕ × Result) := do
  if component = [] ∨ StringView.eq component ['.'] then return (s, some it, res)
  else
    let e ← s.getDentry it
    if StringView.eq component ['.', '.'] then return (s, some (e.parent.getD it), res)
    else match s.dcache (it, component) with
      | some d => return (s, some d, res)
      | none =>
        let (s, inode, res) ← Inode.lookupRes disk s e.inode addrs.1 component res
        -- the assertion that `lookup` failed or the result is `Ok`, not both
        if inode.isNone = decide (res = .Ok) then .error .assertion
        else match inode with
          | none => return (s, none, res)
          | some i =>
            let s ← Dentry.construct s addrs.2 it i component
            return (s, some addrs.2, res)

def lookupLoop (disk : Disk) : ℕ → Vfs → ℕ → Name → Result → List (ℕ × ℕ) →
    Option (Except Stop (Vfs × Option ℕ × Result))
  | 0, _, _, _, _, _ => none
  | fuel + 1, s, it, path, res, addrs =>
    if path = [] then some (.ok (s, some it, res))
    else
      let (component, path) := StringView.leftPartitionPath path
      match lookupTurn disk s it component res (addrs.headD (0, 0)) with
      | .error e => some (.error e)
      | .ok (s, none, res) => some (.ok (s, none, res))
      | .ok (s, some it, res) => lookupLoop disk fuel s it path res addrs.tail

def lookupTurns (disk : Disk) : Vfs → ℕ → List Name → Result → List (ℕ × ℕ) →
    Except Stop (Vfs × Option ℕ × Result)
  | s, it, [], res, _ => .ok (s, some it, res)
  | s, it, c :: cs, res, addrs =>
    match lookupTurn disk s it c res (addrs.headD (0, 0)) with
    | .error e => .error e
    | .ok (s, none, res) => .ok (s, none, res)
    | .ok (s, some it, res) => lookupTurns disk s it cs res addrs.tail

theorem components_nil : components [] = [] := by
  rw [components, if_pos rfl]

theorem components_of_ne {path : Name} (h : path ≠ []) :
    components path = (leftPartitionPath path).1 :: components (leftPartitionPath path).2 := by
  rw [components, if_neg h]

theorem leftPartitionPath_cons (c : Char) (path : Name) :
    leftPartitionPath (c :: path) = if c = '/' then ([], path)
      else (c :: (leftPartitionPath path).1, (leftPartitionPath path).2) := by
  by_cases hc : c = '/' <;> simp [leftPartitionPath, List.takeWhile, List.dropWhile, hc]

theorem leftPartitionPath_append (path : Name) :
    (path = (leftPartitionPath path).1 ∧ (leftPartitionPath path).2 = []) ∨
      path = (leftPartitionPath path).1 ++ '/' :: (leftPartitionPath path).2 := by
  induction path with
  | nil => exact .inl ⟨rfl, rfl⟩
  | cons c path ih =>
    rw [leftPartitionPath_cons]
    by_cases hc : c = '/'
    · rw [if_pos hc, hc]
      exact .inr rfl
    · rw [if_neg hc]
      rcases ih with ⟨hp, hnil⟩ | hp
      · exact .inl ⟨congrArg (c :: ·) hp, hnil⟩
      · exact .inr (congrArg (c :: ·) hp)

theorem leftPartitionPath_noSlash (path : Name) : '/' ∉ (leftPartitionPath path).1 := by
  induction path with
  | nil => exact List.not_mem_nil
  | cons c path ih =>
    rw [leftPartitionPath_cons]
    by_cases hc : c = '/'
    · rw [if_pos hc]
      exact List.not_mem_nil
    · rw [if_neg hc]
      intro hmem
      rcases List.mem_cons.mp hmem with hs | hs
      · exact hc hs.symm
      · exact ih hs

theorem leftPartitionPath_length {path : Name} (h : path ≠ []) :
    (leftPartitionPath path).2.length < path.length := by
  rcases leftPartitionPath_append path with ⟨-, hnil⟩ | hp
  · rw [hnil]
    exact List.length_pos_iff.mpr h
  · have hlen := congrArg List.length hp
    simp only [List.length_append, List.length_cons] at hlen
    omega

theorem mem_of_mem_components {path c : Name} {x : Char} (hc : c ∈ components path) (hx : x ∈ c) :
    x ∈ path := by
  fun_induction components path with
  | case1 => cases hc
  | case2 path hne ih =>
    rcases leftPartitionPath_append path with ⟨hp, hnil⟩ | hp
    · rw [hnil, components_nil, List.mem_singleton, ← hp] at hc
      rwa [← hc]
    · rw [hp, List.mem_append, List.mem_cons]
      rcases List.mem_cons.mp hc with rfl | hc
      · exact .inl hx
      · exact .inr (.inr (ih hc))

theorem components_length_le (path : Name) : (components path).length ≤ path.length := by
  fun_induction components path with
  | case1 => exact Nat.le_refl _
  | case2 path hne ih =>
    have hless := leftPartitionPath_length hne
    rw [List.length_cons]
    omega

/-- The non-empty texts between slashes. -/
def names (path : Name) : List Name := (path.splitOn '/').filter (· ≠ [])

theorem names_eq (path : Name) :
    names path = [(leftPartitionPath path).1].filter (· ≠ []) ++ names (leftPartitionPath path).2 := by
  have hfirst : ∀ x ∈ (leftPartitionPath path).1, (x == '/') = false := fun x hx =>
    beq_false_of_ne fun hxs => leftPartitionPath_noSlash path (hxs ▸ hx)
  simp only [names, List.splitOn_eq_splitOnP]
  rcases leftPartitionPath_append path with ⟨hp, hnil⟩ | hp
  · rw [hnil]
    nth_rewrite 1 [hp]
    rw [List.splitOnP_eq_singleton hfirst, List.splitOnP_nil]
    simp
  · nth_rewrite 1 [hp]
    rw [List.splitOnP_append_cons_of_forall_mem hfirst _ (beq_self_eq_true _), ← List.filter_append]
    rfl

theorem names_append (d b : Name) : names (d ++ '/' :: b) = names d ++ names b := by
  simp only [names, List.splitOn_eq_splitOnP]
  rw [List.splitOnP_append_cons (p := fun x => x == '/') d b rfl, List.filter_append]

theorem components_filter (path : Name) : (components path).filter (· ≠ []) = names path := by
  fun_induction components path with
  | case1 => rfl
  | case2 path hne ih =>
    rw [names_eq, ← ih, ← List.filter_append]
    rfl

section Loop
variable {disk : Disk} {s : Vfs} {it : ℕ} {res : Result} {addrs : List (ℕ × ℕ)}

theorem lookupLoop_eq {fuel : ℕ} {path : Name} (hlen : path.length < 2 ^ 31) (hfuel : path.length < fuel) :
    lookupLoop disk fuel s it path res addrs = some (lookupTurns disk s it (components path) res addrs) := by
  induction fuel generalizing s it path res addrs with
  | zero => omega
  | succ fuel ih =>
    rw [lookupLoop]
    by_cases hnil : path = []
    · rw [if_pos hnil, hnil, components_nil]
      rfl
    · have hless := leftPartitionPath_length hnil
      have hpart : StringView.leftPartitionPath path = leftPartitionPath path :=
        StringView.leftPartitionPath_eq hlen
      rw [if_neg hnil, hpart, components_of_ne hnil, lookupTurns]
      dsimp only
      cases lookupTurn disk s it (leftPartitionPath path).1 res (addrs.headD (0, 0)) with
      | error e => rfl
      | ok r =>
        obtain ⟨s', next, res'⟩ := r
        cases next with
        | none => rfl
        | some d => exact ih (by omega) (by omega)

def withRes (r : Vfs × Option ℕ) : Vfs × Option ℕ × Result :=
  (r.1, r.2, if r.2.isNone then .FileNotFound else .Ok)

theorem Inode.lookupRes_ok {i addr : ℕ} {name : Name} :
    Inode.lookupRes disk s i addr name .Ok = (Inode.lookup disk s i addr name).map withRes := by
  rw [Inode.lookupRes]
  cases Inode.lookup disk s i addr name <;> rfl

theorem lookupTurn_ok {component : Name} (hnul : StringView.nul ∉ component) (a : ℕ × ℕ) :
    lookupTurn disk s it component .Ok a = (lookupComponent disk s it component a).map withRes := by
  simp only [lookupTurn, lookupComponent, StringView.eq_iff hnul]
  by_cases hstay : component = [] ∨ component = ['.']
  · rw [if_pos hstay, if_pos hstay]
    rfl
  · rw [if_neg hstay, if_neg hstay]
    cases s.getDentry it with
    | error e => rfl
    | ok e =>
      rw [ok_bind, ok_bind]
      by_cases hup : component = ['.', '.']
      · rw [if_pos hup, if_pos hup]
        rfl
      · rw [if_neg hup, if_neg hup]
        cases s.dcache (it, component) with
        | some d => rfl
        | none =>
          rw [Inode.lookupRes_ok]
          cases Inode.lookup disk s e.inode a.1 component with
          | error e => rfl
          | ok r =>
            obtain ⟨s', inode⟩ := r
            cases inode with
            | none => rfl
            | some i =>
              change (Dentry.construct s' a.2 it i component >>= _) =
                Except.map withRes (Dentry.construct s' a.2 it i component >>= _)
              cases Dentry.construct s' a.2 it i component <;> rfl

theorem lookupTurns_ok {cs : List Name} (hnul : ∀ c ∈ cs, StringView.nul ∉ c) :
    lookupTurns disk s it cs .Ok addrs = (lookupComponents disk s it cs addrs).map withRes := by
  induction cs generalizing s it addrs with
  | nil => rfl
  | cons c cs ih =>
    rw [lookupTurns, lookupComponents, lookupTurn_ok (hnul c List.mem_cons_self)]
    cases lookupComponent disk s it c (addrs.headD (0, 0)) with
    | error e => rfl
    | ok r =>
      obtain ⟨s', next⟩ := r
      cases next with
      | none => rfl
      | some d => exact ih fun c' hc' => hnul c' (List.mem_cons_of_mem _ hc')

theorem PathString.nul_free_components (path : PathString) : ∀ c ∈ components path.chars, StringView.nul ∉ c :=
  fun _ hc hnul => path.nul_free (mem_of_mem_components hc hnul)

theorem lookupLoop_eq_pathnameLookup (path : PathString) {fuel : ℕ} (hfuel : path.chars.length < fuel) :
    lookupLoop disk fuel s s.root path.chars .Ok addrs =
      some ((pathnameLookup disk s path.chars addrs).map withRes) := by
  rw [lookupLoop_eq path.fits hfuel, lookupTurns_ok path.nul_free_components]
  rfl

end Loop

end HmmOS.Fs
