/-
# The vocabulary of the snooping protocols

States, events, actions and messages of the two controllers of
`MSI_Snooping_One_Level_RT` and `MESI_Snooping_One_Level_RT` (the `-cache.sm`,
`-dir.sm` and `-msg.sm` files of `src/mem/protocol`).  The two protocols share
their in_ports and actions, so one set of names serves both: the MSI tables
simply have no row for `E`, `IE_A`, `EI_A`, `ES_A` and `Data_Exclusive`.

Left out: the `uu_profile*` actions and `copyStartTimeCETBE` (statistics and
timestamps only), the approximate-computing events (no in_port of these
protocols triggers them: `LD_APPROX`, `ST_APPROX` and `GETMA` are never issued)
and the directory's DMA states and events.
-/
import Mathlib.Data.Fintype.Basic

/-! ## The L1 controller -/

/-- The states of an L1 line (`state_declaration` of the `-cache.sm` files). -/
inductive CacheState
  | NP | I | S | M | E
  | IS_AD | IS_D | IS_DI | IS_A | IE_A | IM_AD
  | IM_D | IM_A | IM_DS | IM_DI | IM_DSI
  | SM | IS_I | IM_S | IM_SI | SM_I | SM_S | SM_SI
  | SM_AD | SM_A | SM_D | SM_DS | SM_DSI | SM_DI
  | M_I | MI_A | MS_A | II_A | I_I
  | SM_W | IM_W | MS_WB | MI_WB
  | M_L | SM_WL | IM_WL | IM_ADL | IM_DL | IM_AL
  | EI_A | ES_A
  deriving DecidableEq, Repr

instance : Fintype CacheState :=
  Fintype.ofList [.NP, .I, .S, .M, .E, .IS_AD, .IS_D, .IS_DI, .IS_A, .IE_A, .IM_AD, .IM_D,
    .IM_A, .IM_DS, .IM_DI, .IM_DSI, .SM, .IS_I, .IM_S, .IM_SI, .SM_I, .SM_S, .SM_SI, .SM_AD,
    .SM_A, .SM_D, .SM_DS, .SM_DSI, .SM_DI, .M_I, .MI_A, .MS_A, .II_A, .I_I, .SM_W, .IM_W,
    .MS_WB, .MI_WB, .M_L, .SM_WL, .IM_WL, .IM_ADL, .IM_DL, .IM_AL, .EI_A, .ES_A]
    (by intro x; cases x <;> decide)

/-- The events an in_port of the L1 triggers. -/
inductive CacheEvent
  | Load | Store | Ifetch | RMW_Read | RMW_Write | Replacement
  | Other_GETS | Other_GETM | Other_GETI | Other_PUTM | Other_UPG
  | OWN_GETS | OWN_GETM | OWN_GETI | OWN_PUTM | OWN_UPG
  | INV | ATOMICST | ATOMICEN | Data | Data_Exclusive | Ack
  deriving DecidableEq, Repr

instance : Fintype CacheEvent :=
  Fintype.ofList [.Load, .Store, .Ifetch, .RMW_Read, .RMW_Write, .Replacement, .Other_GETS,
    .Other_GETM, .Other_GETI, .Other_PUTM, .Other_UPG, .OWN_GETS, .OWN_GETM, .OWN_GETI,
    .OWN_PUTM, .OWN_UPG, .INV, .ATOMICST, .ATOMICEN, .Data, .Data_Exclusive, .Ack]
    (by intro x; cases x <;> decide)

/-- The actions of the L1 transitions. -/
inductive CacheAction
  | as_issueGETSMem | ai_issueGETINSTR | bm_issueGETMR | bm_issueUpg | bam_issueGETM
  | bm_issueGETM | bam_issueGETMATOMICST | bam_issueGETMATOMICEN
  | bpm_issuePUTM | bpm_issuePUTMR | bpm_issuePUTMD
  | cc_sendDataCacheToDir | ct_sendDataTBEToDir
  | r_load_hit | rx_load_hit | s_store_hit | sx_store_hit
  | sx_atomic_store_hit_set | sx_atomic_store_hit_unset
  | i_allocateAtomicTBE | i_allocateTBE | s_deallocateTBE
  | k_popMandatoryQueue | setStartTime | setStartTimeCE
  | l_popRequestQueue | l_popRequestWBQueue | l_popAtomicRequestQueue
  | o_popIncomingResponseQueue | u_writeDataToL1Cache
  | ff_deallocateL1CacheBlock | oo_allocateAtomicL1DCacheBlock
  | oo_allocateL1DCacheBlock | pp_allocateL1ICacheBlock
  | z_stallAndWaitMandatoryQueue | z_stallAndWaitRequestQueue | z_stallAndWaitRequestWBQueue
  | kd_wakeUpDependents | ka_wakeUpAllDependents
  | setBlocked | setUnblocked
  deriving DecidableEq, Repr

/-- The permissions of `RubySlicc_Exports.sm`. -/
inductive AccessPermission
  | Read_Only | Read_Write | Maybe_Stale | Backing_Store | Invalid | NotPresent | Busy
  deriving DecidableEq, Repr

/-- `L1Cache_State_to_permission`. -/
def CacheState.toPermission : CacheState → AccessPermission
  | NP | I => .Invalid
  | S | E | SM | SM_I | SM_S | SM_SI | SM_AD | SM_A | SM_D | SM_DS | SM_DSI | SM_DI
  | M_I | MI_A | MS_A | II_A | EI_A | ES_A => .Read_Only
  | M => .Read_Write
  | _ => .Busy

/-! ## The directory -/

/-- The states of a directory line. -/
inductive DirState
  | I | E | S | M | IE | ES | IM | MI | IS | IS_A | M_DM | M_DS | M_D
  deriving DecidableEq, Repr

instance : Fintype DirState :=
  Fintype.ofList [.I, .E, .S, .M, .IE, .ES, .IM, .MI, .IS, .IS_A, .M_DM, .M_DS, .M_D]
    (by intro x; cases x <;> decide)

/-- The events an in_port of the directory triggers. -/
inductive DirEvent
  | Data | Memory_Data | Memory_Ack | GETS | PUTM | GETM | GETMO | UPG
  deriving DecidableEq, Repr

instance : Fintype DirEvent :=
  Fintype.ofList [.Data, .Memory_Data, .Memory_Ack, .GETS, .PUTM, .GETM, .GETMO, .UPG]
    (by intro x; cases x <;> decide)

/-- The actions of the directory transitions. -/
inductive DirAction
  | c_clearOwner | e_ownerIsRequestor | d_sendData | d_sendDataExclusive
  | i_allocateTBE | w_deallocateTBE | ss_recordGetSL1ID
  | j_popIncomingRequestQueue | j_popIncomingRequestWBQueue
  | k_popIncomingResponseQueue | l_popMemQueue | kd_wakeUpDependents
  | qf_queueMemoryFetchRequest | qw_queueMemoryWBRequest | z_stallAndWaitRequest
  deriving DecidableEq, Repr

/-- The transition declarations of a protocol: for a state and an event, the next state
and the actions in order, or nothing where `doTransitionWorker` ends in
`fatal("Invalid transition")`. -/
structure Protocol where
  /-- The transitions of the L1 machine. -/
  cache : CacheState → CacheEvent → Option (CacheState × List CacheAction)
  /-- The transitions of the directory machine. -/
  dir : DirState → DirEvent → Option (DirState × List DirAction)

/-! ## Messages -/

/-- The requests the L1s put on the bus. -/
inductive CoherenceRequestType
  | GETS | GETI | GETM | UPG | PUTM
  deriving DecidableEq, Repr

instance : Fintype CoherenceRequestType :=
  Fintype.ofList [.GETS, .GETI, .GETM, .UPG, .PUTM] (by intro x; cases x <;> decide)

/-- The messages of the atomic vnet. -/
inductive AtomicRequestType
  | GETMATOMICST | GETMATOMICEN
  deriving DecidableEq, Repr

/-- A bus request: its type and the L1 that issued it. -/
structure RequestMsg (n : ℕ) where
  type : CoherenceRequestType
  requestor : Fin n
  deriving DecidableEq, Repr

/-- A request waiting in an L1's `requestFromCache`; `side` marks a side packet
(`Destination.makeSidePacket()`), which does not wait for the core's slot. -/
structure QueuedRequest where
  type : CoherenceRequestType
  side : Bool
  deriving DecidableEq, Repr

/-- A data response of the directory: `DATA`, or `DATA_EXCLUSIVE` in the MESI protocol. -/
structure ResponseMsg (β : Type) where
  exclusive : Bool
  dataBlk : β
  deriving Repr

/-! ## Processor requests -/

/-- The primary types under which the Sequencer files a request. -/
inductive RubyRequestType
  | LD | IFETCH | ST | RMW_Read | Load_Linked | Store_Conditional
  | Locked_RMW_Read | Locked_RMW_Write
  deriving DecidableEq, Repr

/-- The event of a request: the secondary type chosen by `Sequencer::makeRequest`, mapped
by `mandatory_request_type_to_event`.  Store checks (`RMW_Read`) go out as `ST`, load-linked
and store-conditional as `ATOMIC`, and both become `Store`. -/
def RubyRequestType.toEvent : RubyRequestType → CacheEvent
  | LD => .Load
  | IFETCH => .Ifetch
  | ST | RMW_Read | Load_Linked | Store_Conditional => .Store
  | Locked_RMW_Read => .RMW_Read
  | Locked_RMW_Write => .RMW_Write

/-- The requests kept in `m_readRequestTable`. -/
def RubyRequestType.isRead : RubyRequestType → Bool
  | LD | IFETCH => true
  | _ => false

/-- The requests whose `hitCallback` writes the packet's bytes into the block
(`data.setData`); the others copy bytes out of it. -/
def RubyRequestType.setsData : RubyRequestType → Bool
  | ST | Store_Conditional | Locked_RMW_Write => true
  | _ => false

/-- An outstanding request of the Sequencer: its type and, for a writing one, what
`setData` does to the block. -/
structure SequencerRequest (β : Type) where
  type : RubyRequestType
  setData : β → β
