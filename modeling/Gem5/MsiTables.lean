/-
# The transition tables of `MSI_Snooping_One_Level_RT`

`msiCache` and `msiDir` list the `transition` declarations of
`MSI_Snooping_One_Level_RT-cache.sm` and `MSI_Snooping_One_Level_RT-dir.sm`,
arranged by event: for every state the next state and the actions in the order
in which the generated `doTransitionWorker` runs them.  A pair without a row is
one for which the generated code calls `fatal("Invalid transition")`.
-/
import Gem5.SliccTypes

/-- The L1 transitions of the MSI protocol. -/
def msiCache (s : CacheState) (e : CacheEvent) : Option (CacheState × List CacheAction) :=
  match e with
  | .Load =>
    match s with
    | .MS_WB | .MI_WB | .SM_W | .MS_A | .IS_AD | .IS_D | .IS_A | .IS_DI | .IM_AD | .IM_D |
      .IM_A | .IM_DI | .IM_DS | .IM_DSI | .II_A | .IM_ADL | .IM_DL | .SM_WL | .M_L =>
        some (s, [.z_stallAndWaitMandatoryQueue])
    | .I =>
        some (.IS_AD, [.oo_allocateL1DCacheBlock, .i_allocateTBE, .as_issueGETSMem,
          .setStartTime])
    | .S | .SM_DS | .SM_AD | .SM_D | .SM_A | .SM_DI | .SM_DSI | .M | .MI_A =>
        some (s, [.rx_load_hit, .k_popMandatoryQueue])
    | _ => none
  | .Ifetch =>
    match s with
    | .I =>
        some (.IS_AD, [.pp_allocateL1ICacheBlock, .i_allocateTBE, .ai_issueGETINSTR,
          .setStartTime])
    | .MS_A | .IS_AD | .IS_D | .IS_A | .IS_DI | .IM_AD | .IM_D | .IM_A | .IM_DI | .IM_DS |
      .IM_DSI | .II_A => some (s, [.z_stallAndWaitMandatoryQueue])
    | .S | .SM_DS | .SM_AD | .SM_D | .SM_A | .SM_DI | .SM_DSI | .M | .MI_A =>
        some (s, [.rx_load_hit, .k_popMandatoryQueue])
    | _ => none
  | .Store =>
    match s with
    | .MS_WB | .MI_WB | .SM_W | .MS_A | .IS_AD | .IS_D | .IS_A | .IS_DI | .IM_AD | .IM_D |
      .IM_A | .IM_DI | .IM_DS | .IM_DSI | .II_A | .SM_AD | .SM_D | .SM_A | .SM_DI | .SM_DSI
      | .SM_DS | .IM_ADL | .IM_DL | .SM_WL | .M_L => some (s, [.z_stallAndWaitMandatoryQueue])
    | .I =>
        some (.IM_AD, [.oo_allocateL1DCacheBlock, .i_allocateTBE, .bm_issueGETM,
          .setStartTime])
    | .S => some (.SM_W, [.bm_issueUpg, .setStartTimeCE])
    | .M | .MI_A => some (s, [.sx_store_hit, .k_popMandatoryQueue])
    | _ => none
  | .RMW_Read =>
    match s with
    | .MS_A | .IS_AD | .IS_D | .IS_A | .IS_DI | .IM_AD | .IM_D | .IM_A | .IM_DI | .IM_DS |
      .IM_DSI | .II_A | .MI_A | .IM_ADL | .IM_DL | .SM_WL | .M_L =>
        some (s, [.z_stallAndWaitMandatoryQueue])
    | .M => some (.M_L, [.bam_issueGETMATOMICST, .sx_atomic_store_hit_set, .k_popMandatoryQueue])
    | .I =>
        some (.IM_DL, [.oo_allocateAtomicL1DCacheBlock, .i_allocateAtomicTBE,
          .bam_issueGETM, .bam_issueGETMATOMICST, .k_popMandatoryQueue])
    | .S => some (.SM_WL, [.bm_issueUpg, .bam_issueGETMATOMICST, .k_popMandatoryQueue])
    | _ => none
  | .RMW_Write =>
    match s with
    | .IS_AD | .IS_D | .IS_A | .IS_DI | .IM_AD | .IM_D | .IM_A | .IM_DI | .IM_DS | .IM_DSI |
      .II_A => some (s, [.z_stallAndWaitMandatoryQueue])
    | .M_L =>
        some (.M, [.bam_issueGETMATOMICEN, .sx_atomic_store_hit_unset, .k_popMandatoryQueue,
          .ka_wakeUpAllDependents, .kd_wakeUpDependents])
    | _ => none
  | .Replacement =>
    match s with
    | .MS_WB | .MI_WB | .SM_W | .MI_A | .MS_A | .IS_AD | .IS_D | .IS_A | .IS_DI | .IM_AD |
      .IM_D | .IM_A | .IM_DI | .IM_DS | .IM_DSI | .II_A | .SM_AD | .SM_D | .SM_A | .SM_DI |
      .SM_DSI | .SM_DS | .IM_ADL | .IM_DL | .SM_WL | .M_L =>
        some (s, [.z_stallAndWaitMandatoryQueue])
    | .M => some (.MI_A, [.bpm_issuePUTM, .z_stallAndWaitMandatoryQueue])
    | .S => some (.I, [.ff_deallocateL1CacheBlock])
    | _ => none
  | .OWN_GETS =>
    match s with
    | .IS_AD => some (.IS_D, [.l_popRequestQueue])
    | .IS_A =>
        some (.S, [.r_load_hit, .l_popRequestQueue, .kd_wakeUpDependents,
          .ka_wakeUpAllDependents])
    | _ => none
  | .OWN_GETI =>
    match s with
    | .IS_AD => some (.IS_D, [.l_popRequestQueue])
    | .IS_A =>
        some (.S, [.r_load_hit, .l_popRequestQueue, .kd_wakeUpDependents,
          .ka_wakeUpAllDependents])
    | _ => none
  | .OWN_GETM =>
    match s with
    | .IM_AD => some (.IM_D, [.l_popRequestQueue])
    | .IM_D | .IM_DI | .IM_DL => some (s, [.l_popRequestQueue])
    | .IM_A =>
        some (.M, [.s_store_hit, .l_popRequestQueue, .kd_wakeUpDependents,
          .ka_wakeUpAllDependents])
    | .SM_AD => some (.SM_D, [.l_popRequestQueue])
    | .SM_A =>
        some (.M, [.sx_store_hit, .l_popRequestQueue, .kd_wakeUpDependents,
          .ka_wakeUpAllDependents])
    | .IM_AL => some (.M_L, [.sx_atomic_store_hit_set, .l_popRequestQueue])
    | _ => none
  | .OWN_UPG =>
    match s with
    | .SM_W =>
        some (.M, [.sx_store_hit, .l_popRequestQueue, .kd_wakeUpDependents,
          .ka_wakeUpAllDependents])
    | .IM_W => some (.IM_D, [.bm_issueGETMR, .i_allocateTBE, .l_popRequestQueue])
    | .SM_WL => some (.M_L, [.sx_atomic_store_hit_set, .l_popRequestQueue])
    | .IM_WL => some (.IM_DL, [.bm_issueGETMR, .i_allocateTBE, .l_popRequestQueue])
    | _ => none
  | .OWN_PUTM =>
    match s with
    | .MI_A =>
        some (.I, [.i_allocateTBE, .ct_sendDataTBEToDir, .ff_deallocateL1CacheBlock,
          .l_popRequestWBQueue, .ka_wakeUpAllDependents, .kd_wakeUpDependents,
          .s_deallocateTBE])
    | .MS_A =>
        some (.S, [.i_allocateTBE, .ct_sendDataTBEToDir, .l_popRequestWBQueue,
          .ka_wakeUpAllDependents, .kd_wakeUpDependents, .s_deallocateTBE])
    | .II_A =>
        some (.I, [.ff_deallocateL1CacheBlock, .l_popRequestWBQueue,
          .ka_wakeUpAllDependents, .kd_wakeUpDependents])
    | _ => none
  | .Other_GETS =>
    match s with
    | .MS_WB | .MI_WB | .IM_DL | .M_L => some (s, [.z_stallAndWaitRequestQueue])
    | .IM_D => some (.IM_DS, [.l_popRequestQueue])
    | .IM_DS | .SM_DS | .SM_W | .MI_A | .MS_A | .I | .S | .IS_D | .IS_AD | .IM_AD | .IM_A |
      .IM_AL | .II_A | .IM_DI | .IS_A | .IM_DSI | .SM_DI | .SM_DSI | .IS_DI | .IM_W | .IM_WL
      | .SM_AD | .SM_A | .SM_WL | .IM_ADL => some (s, [.l_popRequestQueue])
    | .SM_D => some (.SM_DS, [.l_popRequestQueue])
    | .M => some (.MS_A, [.bpm_issuePUTMR, .l_popRequestQueue])
    | _ => none
  | .Other_GETI =>
    match s with
    | .IM_D => some (.IM_DS, [.l_popRequestQueue])
    | .SM_D => some (.SM_DS, [.l_popRequestQueue])
    | .M => some (.MS_A, [.bpm_issuePUTMR, .l_popRequestQueue])
    | .MI_A | .MS_A | .I | .S | .IS_D | .IS_AD | .IM_AD | .IM_A | .IM_AL | .II_A | .IM_DI |
      .IS_A | .IM_DSI | .SM_DI | .SM_DSI | .IS_DI | .IM_W | .IM_WL =>
        some (s, [.l_popRequestQueue])
    | _ => none
  | .Other_GETM =>
    match s with
    | .MS_WB | .MI_WB | .IM_DL | .M_L => some (s, [.z_stallAndWaitRequestQueue])
    | .IS_D => some (.IS_DI, [.l_popRequestQueue])
    | .IM_D | .IM_DS => some (.IM_DI, [.l_popRequestQueue])
    | .S => some (.I, [.ff_deallocateL1CacheBlock, .l_popRequestQueue])
    | .SM_W => some (.IM_W, [.l_popRequestQueue])
    | .SM_AD => some (.IM_AD, [.l_popRequestQueue])
    | .SM_A => some (.IM_A, [.l_popRequestQueue])
    | .SM_D => some (.SM_DI, [.l_popRequestQueue])
    | .SM_DS => some (.SM_DSI, [.l_popRequestQueue])
    | .M => some (.MI_A, [.bpm_issuePUTMR, .l_popRequestQueue])
    | .MI_A | .I | .IS_AD | .IM_AD | .IM_A | .II_A | .IM_AL | .IM_DI | .IS_A | .IM_DSI |
      .SM_DI | .SM_DSI | .IS_DI | .IM_W | .IM_WL | .IM_ADL => some (s, [.l_popRequestQueue])
    | .MS_A => some (.MI_A, [.l_popRequestQueue])
    | .SM_WL => some (.IM_WL, [.l_popRequestQueue])
    | _ => none
  | .Other_UPG =>
    match s with
    | .IS_D => some (.IS_DI, [.l_popRequestQueue])
    | .IM_D | .I | .MI_A | .MS_A | .IS_AD | .IM_AD | .IM_A | .IM_AL | .II_A | .IM_DI | .IS_A
      | .IM_DSI | .SM_DI | .SM_DSI | .IS_DI | .IM_W | .IM_WL | .IM_ADL =>
        some (s, [.l_popRequestQueue])
    | .IM_DS => some (.IM_DI, [.l_popRequestQueue])
    | .SM_W => some (.IM_W, [.l_popRequestQueue])
    | .S => some (.I, [.ff_deallocateL1CacheBlock, .l_popRequestQueue])
    | .SM_AD => some (.IM_AD, [.l_popRequestQueue])
    | .SM_D => some (.SM_DI, [.l_popRequestQueue])
    | .M => some (.MI_A, [.bpm_issuePUTMR, .l_popRequestQueue])
    | .SM_WL => some (.IM_WL, [.l_popRequestQueue])
    | .IM_DL | .M_L => some (s, [.z_stallAndWaitRequestQueue])
    | _ => none
  | .Other_PUTM =>
    match s with
    | .MS_WB | .MI_WB => some (s, [.z_stallAndWaitRequestWBQueue])
    | .SM_W | .IM_W | .IS_AD | .IM_AD | .IM_A | .IM_AL | .II_A | .I | .S | .IM_WL | .IM_ADL
      | .IM_DL | .M_L | .IM_D | .IM_DI | .M | .IS_D | .IS_DI | .MI_A | .MS_A | .IM_DS |
      .IM_DSI => some (s, [.l_popRequestWBQueue])
    | .SM_WL => some (.IM_WL, [.l_popRequestWBQueue])
    | _ => none
  | .INV =>
    match s with
    | .I => some (.I, [.l_popRequestQueue])
    | .IS_AD | .IS_D | .IS_A | .IS_DI | .IM_AD | .IM_D | .IM_A | .IM_DI | .IM_DS | .IM_DSI |
      .SM_AD | .SM_D | .SM_A | .SM_DI | .SM_DS | .SM_DSI | .MI_A | .II_A =>
        some (s, [.z_stallAndWaitRequestQueue])
    | .S => some (.I, [.ff_deallocateL1CacheBlock])
    | .M =>
        some (.I, [.i_allocateTBE, .ct_sendDataTBEToDir, .ff_deallocateL1CacheBlock,
          .l_popRequestQueue, .ka_wakeUpAllDependents, .kd_wakeUpDependents,
          .s_deallocateTBE])
    | _ => none
  | .Data =>
    match s with
    | .IS_D =>
        some (.S, [.u_writeDataToL1Cache, .r_load_hit, .s_deallocateTBE,
          .o_popIncomingResponseQueue, .kd_wakeUpDependents, .ka_wakeUpAllDependents])
    | .IM_D =>
        some (.M, [.u_writeDataToL1Cache, .s_store_hit, .s_deallocateTBE,
          .o_popIncomingResponseQueue, .kd_wakeUpDependents, .ka_wakeUpAllDependents])
    | .IS_DI =>
        some (.I, [.u_writeDataToL1Cache, .r_load_hit, .s_deallocateTBE,
          .o_popIncomingResponseQueue, .ff_deallocateL1CacheBlock, .kd_wakeUpDependents,
          .ka_wakeUpAllDependents])
    | .IS_AD =>
        some (.IS_A, [.u_writeDataToL1Cache, .s_deallocateTBE, .o_popIncomingResponseQueue])
    | .IM_AD =>
        some (.IM_A, [.u_writeDataToL1Cache, .s_deallocateTBE, .o_popIncomingResponseQueue])
    | .IM_DS =>
        some (.MS_A, [.u_writeDataToL1Cache, .s_deallocateTBE, .s_store_hit,
          .bpm_issuePUTMD, .o_popIncomingResponseQueue])
    | .IM_DI =>
        some (.MI_A, [.u_writeDataToL1Cache, .s_deallocateTBE, .s_store_hit,
          .bpm_issuePUTMD, .o_popIncomingResponseQueue])
    | .IM_DSI =>
        some (.I, [.u_writeDataToL1Cache, .s_deallocateTBE, .s_store_hit,
          .cc_sendDataCacheToDir, .ff_deallocateL1CacheBlock, .o_popIncomingResponseQueue,
          .kd_wakeUpDependents, .ka_wakeUpAllDependents])
    | .SM_D =>
        some (.M, [.u_writeDataToL1Cache, .sx_store_hit, .s_deallocateTBE,
          .o_popIncomingResponseQueue, .kd_wakeUpDependents, .ka_wakeUpAllDependents])
    | .SM_AD =>
        some (.SM_A, [.u_writeDataToL1Cache, .s_deallocateTBE, .o_popIncomingResponseQueue])
    | .SM_DS =>
        some (.S, [.u_writeDataToL1Cache, .sx_store_hit, .s_deallocateTBE,
          .o_popIncomingResponseQueue, .cc_sendDataCacheToDir, .kd_wakeUpDependents,
          .ka_wakeUpAllDependents])
    | .SM_DSI | .SM_DI =>
        some (.I, [.u_writeDataToL1Cache, .sx_store_hit, .s_deallocateTBE,
          .o_popIncomingResponseQueue, .cc_sendDataCacheToDir, .ff_deallocateL1CacheBlock,
          .kd_wakeUpDependents, .ka_wakeUpAllDependents])
    | .I | .II_A | .S | .M => some (s, [.o_popIncomingResponseQueue])
    | .IM_ADL =>
        some (.IM_AL, [.u_writeDataToL1Cache, .s_deallocateTBE,
          .o_popIncomingResponseQueue])
    | .IM_DL =>
        some (.M_L, [.u_writeDataToL1Cache, .sx_atomic_store_hit_set, .s_deallocateTBE,
          .o_popIncomingResponseQueue])
    | _ => none
  | .Ack =>
    match s with
    | .MS_WB => some (.S, [.o_popIncomingResponseQueue, .ka_wakeUpAllDependents])
    | _ => none
  | .ATOMICST =>
    match s with
    | .I | .M | .S | .IS_AD | .IS_D | .IS_DI | .IS_A | .IM_AD | .IM_D | .IM_A | .IM_DS |
      .IM_DI | .IM_DSI | .SM | .IS_I | .IM_S | .IM_SI | .SM_I | .SM_S | .SM_SI | .SM_AD |
      .SM_A | .SM_D | .SM_DS | .SM_DSI | .SM_DI | .M_I | .MI_A | .MS_A | .II_A | .I_I |
      .SM_W | .IM_W | .MS_WB | .SM_WL | .M_L | .IM_ADL | .IM_WL | .IM_DL | .IM_AL =>
        some (s, [.setBlocked, .l_popAtomicRequestQueue])
    | _ => none
  | .ATOMICEN =>
    match s with
    | .I | .M | .S | .IS_AD | .IS_D | .IS_DI | .IS_A | .IM_AD | .IM_D | .IM_A | .IM_DS |
      .IM_DI | .IM_DSI | .SM | .IS_I | .IM_S | .IM_SI | .SM_I | .SM_S | .SM_SI | .SM_AD |
      .SM_A | .SM_D | .SM_DS | .SM_DSI | .SM_DI | .M_I | .MI_A | .MS_A | .II_A | .I_I |
      .SM_W | .IM_W | .MS_WB | .SM_WL | .IM_DL | .IM_ADL | .IM_WL | .M_L | .IM_AL =>
        some (s, [.setUnblocked, .l_popAtomicRequestQueue])
    | _ => none
  | .Data_Exclusive => none

/-- The directory transitions of the MSI protocol. -/
def msiDir (s : DirState) (e : DirEvent) : Option (DirState × List DirAction) :=
  match e with
  | .GETS =>
    match s with
    | .I =>
        some (.IS, [.i_allocateTBE, .ss_recordGetSL1ID, .qf_queueMemoryFetchRequest,
          .j_popIncomingRequestQueue])
    | .IS | .IM | .M_D | .MI | .IS_A => some (s, [.z_stallAndWaitRequest])
    | .M => some (.M_D, [.i_allocateTBE])
    | _ => none
  | .GETM =>
    match s with
    | .I =>
        some (.IM, [.e_ownerIsRequestor, .i_allocateTBE, .qf_queueMemoryFetchRequest,
          .j_popIncomingRequestQueue])
    | .IS | .IM | .M_D | .MI | .IS_A => some (s, [.z_stallAndWaitRequest])
    | .M => some (.M_D, [.i_allocateTBE])
    | _ => none
  | .GETMO =>
    match s with
    | .M => some (.IM, [.i_allocateTBE, .qf_queueMemoryFetchRequest, .j_popIncomingRequestQueue])
    | .M_D => some (.IM, [.qf_queueMemoryFetchRequest, .j_popIncomingRequestQueue])
    | _ => none
  | .UPG =>
    match s with
    | .IS | .IM | .MI | .IS_A => some (s, [.z_stallAndWaitRequest])
    | .M | .M_D => some (s, [.j_popIncomingRequestQueue])
    | .I => some (.M, [.e_ownerIsRequestor, .j_popIncomingRequestQueue])
    | _ => none
  | .PUTM =>
    match s with
    | .M_D => some (.M_D, [.j_popIncomingRequestWBQueue])
    | .M => some (.MI, [.j_popIncomingRequestWBQueue])
    | .MI | .IS_A => some (s, [.z_stallAndWaitRequest])
    | _ => none
  | .Data =>
    match s with
    | .M_D =>
        some (.I, [.c_clearOwner, .qw_queueMemoryWBRequest, .k_popIncomingResponseQueue,
          .w_deallocateTBE, .kd_wakeUpDependents])
    | .MI | .M =>
        some (.I, [.c_clearOwner, .qw_queueMemoryWBRequest, .k_popIncomingResponseQueue,
          .kd_wakeUpDependents])
    | _ => none
  | .Memory_Data =>
    match s with
    | .IS => some (.I, [.d_sendData, .w_deallocateTBE, .kd_wakeUpDependents])
    | .IM => some (.M, [.d_sendData, .kd_wakeUpDependents, .w_deallocateTBE])
    | _ => none
  | .Memory_Ack =>
    match s with
    | .I | .M | .MI | .IS | .IM | .IS_A | .M_D | .M_DS | .M_DM => some (s, [.l_popMemQueue])
    | _ => none

/-- `MSI_Snooping_One_Level_RT`. -/
def msi : Protocol := ⟨msiCache, msiDir⟩
