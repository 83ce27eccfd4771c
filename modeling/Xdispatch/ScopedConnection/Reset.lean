import Xdispatch.ConnectionManager.Model
import Xdispatch.ScopedConnection.Model

/-!
# What a connection manager resets

`reset_connections_with` erases the connections to a signal with `std::remove_if`.
Its move assignments disconnect what the target holds, and the tail is destroyed.
-/

namespace Xdispatch.ScopedConnection

variable {σ η : Type} [DecidableEq σ] [DecidableEq η]

/-- `connection_manager::reset_connections_with`, on `m_connections`. -/
def resetConnectionsWith (w : Signals σ η) (connections : List (Connection σ η)) (s : σ) :
    Signals σ η × List (Connection σ η) :=
  Remove.eraseRemoved (·.isConnectedTo s) Connection.moveAssign (fun w c => c.destroy w) w connections

/-- `connection_manager::reset_connections` -/
def resetConnections (w : Signals σ η) (connections : List (Connection σ η)) : Signals σ η × List (Connection σ η) :=
  (connections.foldl (fun w c => c.destroy w) w, [])

theorem resetConnectionsWith_eq (w : Signals σ η) (connections : List (Connection σ η)) (s : σ) :
    resetConnectionsWith w connections s =
      ((connections.filter (·.isConnectedTo s)).foldl (fun w c => c.destroy w) w,
        connections.filter (!·.isConnectedTo s)) :=
  Remove.eraseRemoved_eq (fun _ _ _ => rfl) destroy_empty w connections

theorem foldl_destroy_calls {s : σ} {l : List (Connection σ η)} (h : ∀ c ∈ l, c.isConnectedTo s = true) (w : Signals σ η) :
    (l.foldl (fun w c => c.destroy w) w).calls = w.calls ++ l.map (s, ·.id) := by
  induction l generalizing w with
  | nil => simp
  | cons c l ih =>
    have hc : c.parent = some s := by simpa [Connection.isConnectedTo] using h c List.mem_cons_self
    rw [List.foldl_cons, ih (fun d hd => h d (List.mem_cons_of_mem _ hd)), destroy_calls, hc]
    simp

/-- Each connection to `s` is disconnected once, in the order of the list, and the others stay as they are. -/
theorem resetConnectionsWith_exact (w : Signals σ η) (connections : List (Connection σ η)) (s : σ) :
    (resetConnectionsWith w connections s).1.calls =
        w.calls ++ (connections.filter (·.isConnectedTo s)).map (s, ·.id) ∧
      (resetConnectionsWith w connections s).2 = connections.filter (!·.isConnectedTo s) := by
  rw [resetConnectionsWith_eq]
  exact ⟨foldl_destroy_calls (fun c hc => (List.mem_filter.mp hc).2) w, rfl⟩

/-! ## The operations of the manager -/

def ofHandler : ConnectionManager.Connection → Connection Nat Nat
  | none => .empty
  | some h => ⟨some h.id, some h.signal, fun _ => rfl⟩

def operate (w : Signals Nat Nat) (connections : List (Connection Nat Nat)) :
    ConnectionManager.Operation → Signals Nat Nat × List (Connection Nat Nat)
  | .add c => (w, connections ++ [ofHandler c])
  | .reset => resetConnections w connections
  | .resetWith s => resetConnectionsWith w connections s

theorem isConnectedTo_ofHandler (c : ConnectionManager.Connection) (s : Nat) :
    (ofHandler c).isConnectedTo s = c.isConnectedTo s := by
  cases c with
  | none => rfl
  | some h => simp [ofHandler, Connection.isConnectedTo, ConnectionManager.Connection.isConnectedTo]

/-- What stays and what is destroyed, and in which order, is what the manager's operations say. -/
theorem operate_eq (w : Signals Nat Nat) (connections : List ConnectionManager.Connection)
    (op : ConnectionManager.Operation) :
    operate w (connections.map ofHandler) op =
      (((op.run connections).2.map ofHandler).foldl (fun w c => c.destroy w) w, (op.run connections).1.map ofHandler) := by
  cases op with
  | add c => simp [operate, ConnectionManager.Operation.run]
  | reset => rfl
  | resetWith s =>
    have h : ((·.isConnectedTo s) ∘ ofHandler) = (·.isConnectedTo s) := funext fun c => isConnectedTo_ofHandler c s
    have h' : ((!·.isConnectedTo s) ∘ ofHandler) = (!·.isConnectedTo s) := by
      funext c
      exact congrArg (!·) (isConnectedTo_ofHandler c s)
    simp only [operate, resetConnectionsWith_eq, ConnectionManager.Operation.run, List.filter_map, h, h']

end Xdispatch.ScopedConnection
