/-
Logs with nested regions.  What is written inside a region is kept if the
region and all regions around it are committed, and lost if one of them is
aborted or never closed.  A log that buffers every open region keeps exactly
that.
-/
import Mathlib.Data.List.Basic

namespace Hegel

/-- An operation on a log. -/
inductive RegionOp (α : Type) where
  | write (a : α)
  | enter
  | commit
  | abort

/-- What is committed, and the buffers of the open regions, innermost first. -/
structure RegionLog (α : Type) where
  base : List α
  regions : List (List α)

variable {α : Type}

/-- What is kept of the operations, and whether the regions that were open
before them are committed, innermost first. -/
def keptWith : List (RegionOp α) → List α × List Bool
  | [] => ([], [])
  | .write a :: rest =>
      ((if (keptWith rest).2.all id then a :: (keptWith rest).1
        else (keptWith rest).1), (keptWith rest).2)
  | .commit :: rest => ((keptWith rest).1, true :: (keptWith rest).2)
  | .abort :: rest => ((keptWith rest).1, false :: (keptWith rest).2)
  | .enter :: rest =>
      match (keptWith rest).2 with
      | [] => ([], [])
      | _ :: fates => ((keptWith rest).1, fates)

/-- What is written in committed regions only. -/
def kept (ops : List (RegionOp α)) : List α :=
  (keptWith ops).1

namespace RegionLog

def empty : RegionLog α :=
  ⟨[], []⟩

/-- Append to the innermost region. -/
def append (log : RegionLog α) (written : List α) : RegionLog α :=
  match log.regions with
  | [] => ⟨log.base ++ written, []⟩
  | buffer :: outer => ⟨log.base, (buffer ++ written) :: outer⟩

/-- A region is closed only if one is open. -/
def step (log : RegionLog α) : RegionOp α → Option (RegionLog α)
  | .write a => some (log.append [a])
  | .enter => some ⟨log.base, [] :: log.regions⟩
  | .commit =>
      match log.regions with
      | [] => none
      | buffer :: outer => some (append ⟨log.base, outer⟩ buffer)
  | .abort =>
      match log.regions with
      | [] => none
      | _ :: outer => some ⟨log.base, outer⟩

def run (log : RegionLog α) (ops : List (RegionOp α)) :
    Option (RegionLog α) :=
  ops.foldlM step log

/-- What the buffers contribute once it is known which regions commit. -/
def contribution : List (List α) → List Bool → List α
  | buffer :: outer, fate :: fates =>
      contribution outer fates ++
        (if fate && fates.all id then buffer else [])
  | _, _ => []

theorem contribution_append {buffer written : List α}
    {outer : List (List α)} {fates : List Bool}
    (hlength : fates.length = outer.length + 1) :
    contribution ((buffer ++ written) :: outer) fates =
      contribution (buffer :: outer) fates ++
        (if fates.all id then written else []) := by
  cases fates with
  | nil => cases hlength
  | cons fate fates =>
      rw [contribution, contribution, List.append_assoc, List.all_cons]
      cases hall : fate && fates.all id <;> simp_all

theorem run_cons (log : RegionLog α) (op : RegionOp α)
    (rest : List (RegionOp α)) :
    log.run (op :: rest) = (log.step op).bind fun log => log.run rest := rfl

/-- Every run keeps what it is said to keep. -/
theorem base_run {ops : List (RegionOp α)} {log log' : RegionLog α}
    (hrun : log.run ops = some log') :
    (keptWith ops).2.length ≤ log.regions.length ∧
      log'.base = log.base ++
        if (keptWith ops).2.length = log.regions.length then
          contribution log.regions (keptWith ops).2 ++ (keptWith ops).1
        else [] := by
  induction ops generalizing log with
  | nil =>
      obtain rfl := Option.some.inj hrun
      obtain ⟨base, regions⟩ := log
      cases regions with
      | nil => simp [keptWith, contribution]
      | cons buffer outer => simp [keptWith]
  | cons op rest ih =>
      obtain ⟨base, regions⟩ := log
      rw [run_cons] at hrun
      obtain ⟨next, hstep, hrest⟩ := Option.bind_eq_some_iff.mp hrun
      obtain ⟨hle, hbase⟩ := ih hrest
      cases op with
      | write a =>
          obtain rfl := Option.some.inj hstep
          rw [keptWith]
          cases regions with
          | nil =>
              have hfates : (keptWith rest).2 = [] :=
                List.length_eq_zero_iff.mp (Nat.le_zero.mp hle)
              refine ⟨hle, ?_⟩
              rw [hbase]
              simp [append, hfates, contribution]
          | cons buffer outer =>
              replace hbase : log'.base = base ++
                  if (keptWith rest).2.length = outer.length + 1 then
                    contribution ((buffer ++ [a]) :: outer)
                      (keptWith rest).2 ++ (keptWith rest).1
                  else [] := hbase
              refine ⟨hle, ?_⟩
              rw [hbase, List.length_cons]
              by_cases hlength :
                  (keptWith rest).2.length = outer.length + 1
              · rw [if_pos hlength, if_pos hlength,
                  contribution_append hlength]
                split_ifs <;> simp
              · rw [if_neg hlength, if_neg hlength]
      | enter =>
          obtain rfl := Option.some.inj hstep
          rw [keptWith]
          cases hfates : (keptWith rest).2 with
          | nil =>
              rw [hfates] at hbase
              refine ⟨Nat.zero_le _, ?_⟩
              rw [hbase]
              cases regions <;> simp [contribution]
          | cons fate fates =>
              rw [hfates] at hle hbase
              refine ⟨Nat.le_of_succ_le_succ hle, ?_⟩
              rw [hbase]
              simp [contribution]
      | commit =>
          rw [keptWith]
          cases regions with
          | nil => cases hstep
          | cons buffer outer =>
              obtain rfl := Option.some.inj hstep
              cases outer with
              | nil =>
                  have hfates : (keptWith rest).2 = [] :=
                    List.length_eq_zero_iff.mp (Nat.le_zero.mp hle)
                  refine ⟨Nat.succ_le_succ hle, ?_⟩
                  rw [hbase]
                  simp [append, hfates, contribution]
              | cons buffer' outer =>
                  replace hbase : log'.base = base ++
                      if (keptWith rest).2.length = outer.length + 1 then
                        contribution ((buffer' ++ buffer) :: outer)
                          (keptWith rest).2 ++ (keptWith rest).1
                      else [] := hbase
                  refine ⟨Nat.succ_le_succ hle, ?_⟩
                  simp only [hbase, List.length_cons, Nat.add_right_cancel_iff]
                  by_cases hlength :
                      (keptWith rest).2.length = outer.length + 1
                  · rw [if_pos hlength, if_pos hlength,
                      contribution_append hlength, contribution,
                      Bool.true_and, List.append_assoc]
                  · rw [if_neg hlength, if_neg hlength]
      | abort =>
          rw [keptWith]
          cases regions with
          | nil => cases hstep
          | cons buffer outer =>
              obtain rfl := Option.some.inj hstep
              refine ⟨Nat.succ_le_succ hle, ?_⟩
              rw [hbase]
              simp [contribution]

/-- A log that starts empty has committed what is kept. -/
theorem base_eq_kept {ops : List (RegionOp α)} {log : RegionLog α}
    (hrun : empty.run ops = some log) : log.base = kept ops := by
  obtain ⟨hle, hbase⟩ := base_run hrun
  have hfates : (keptWith ops).2 = [] :=
    List.length_eq_zero_iff.mp (Nat.le_zero.mp hle)
  rw [hbase, hfates]
  rfl

theorem run_append (log : RegionLog α) (first second : List (RegionOp α)) :
    log.run (first ++ second) =
      (log.run first).bind fun log => log.run second :=
  List.foldlM_append

/-- Another operation is run after the others. -/
theorem run_concat {ops : List (RegionOp α)} {log log' log'' : RegionLog α}
    {op : RegionOp α} (hrun : log.run ops = some log')
    (hstep : log'.step op = some log'') :
    log.run (ops ++ [op]) = some log'' := by
  rw [run_append, hrun]
  exact (Option.bind_some _ _).trans (by rw [run_cons, hstep]; rfl)

end RegionLog

end Hegel
