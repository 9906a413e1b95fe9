import PlaceRoute.Sat.Entailment
import PlaceRoute.Solver.Enumerate
import PlaceRoute.Dot.Netlist
import PlaceRoute.Fabric.Builder
import PlaceRoute.Fabric.Json
import PlaceRoute.Graph.Build
import PlaceRoute.Mapping.Family
import PlaceRoute.Mapping.Enumerate
import PlaceRoute.Mapping.Objective
import PlaceRoute.Diagnostic.Render
import PlaceRoute.Decimal.Shortest
import PlaceRoute.Session.PlaceAndRoute
import PlaceRoute.Report
import PlaceRoute.Settings.Reader
import PlaceRoute.Json.Export
import PlaceRoute.Main
import PlaceRoute.Proofs.Dot.RoundTrip
import PlaceRoute.Proofs.Graph.Failure
import PlaceRoute.Proofs.Solver.Run
import PlaceRoute.Proofs.Mapping.Admit
import PlaceRoute.Proofs.Mapping.Agree
import PlaceRoute.Proofs.Mapping.Deliver
import PlaceRoute.Proofs.Mapping.Paths
import PlaceRoute.Proofs.Mapping.CycleBreak
import PlaceRoute.Proofs.Mapping.RoundTrip
import PlaceRoute.Proofs.Mapping.Stray
import PlaceRoute.Proofs.Session.Replay
import PlaceRoute.Proofs.Session.Best
import PlaceRoute.Proofs.Solver.Machine
import PlaceRoute.Proofs.Graph.MuxCycle
import PlaceRoute.Proofs.Graph.Elision
import PlaceRoute.Proofs.Session.Attest
import PlaceRoute.Proofs.Design.Exact
import PlaceRoute.Proofs.Mapping.Duplicates
import PlaceRoute.Proofs.Mapping.Generation
import PlaceRoute.Proofs.Dot.Exact
import PlaceRoute.Proofs.Dot.Layout
import PlaceRoute.Proofs.Fabric.Exact
import PlaceRoute.Proofs.Graph.Names
import PlaceRoute.Proofs.Fabric.Operands
import PlaceRoute.Proofs.Graph.Pairs
import PlaceRoute.Proofs.Session.Record
